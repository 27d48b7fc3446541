
import ThreadedForth.Proofs.Compiler.Branches
import ThreadedForth.Proofs.Interpreter.Token
import ThreadedForth.Proofs.Machine.Laying
import ThreadedForth.Proofs.Machine.Reachable

/-!
# Definitions

A definition is opened, words are compiled into it one after the other, and it is closed. However
the control words are nested, if none of the words faults, every branch of the definition goes to one
of its instructions.
-/

namespace ThreadedForth

open WordM Layout Header Interpreter Dictionary Draft Region

variable {before after : Machine}

/-! ### Code that is under way -/

/-- Below the code of a definition, or above the control stack. -/
def Elsewhere (first address : Nat) : Prop := address < first ∨ returnStack ≤ address

variable {draft : Draft} {first addr : Nat} {flags : Cell} {code : Code}

theorem Site.transfer (hsite : Site first draft before)
    (hb : after.Bounded) (hdict : after.dictionary = before.dictionary) (hctl : after.control = before.control)
    (hmem : Memory.SameOutside (Elsewhere first) before.memory after.memory) : Site first draft after := by
  have hstart := hsite.start_le
  have hhere := hsite.here_le
  have htop := hsite.top_eq
  have hbase := hsite.base_eq
  have hlow := hsite.top_ge
  have horder := order
  have hfst := hsite.first_le
  refine ⟨hb, by rw [hdict, hsite.here_eq], by rw [hdict, hsite.names_eq], hstart,
    hsite.first_le, hsite.isAligned, fun addr hin => ?_, by rw [hctl]; exact htop, ?_,
    hsite.addresses, hsite.placeholders⟩
  · have ⟨hfst, hlast, _⟩ := hin
    rw [hmem.cellAt, hsite.cells addr hin]
    rintro other hother hother' (hout | hout) <;> omega
  · rw [hctl]
    refine hsite.held.frame hmem ?_
    rintro addr haddr haddress' (hout | hout) <;> omega

theorem Worked.cellAt_of_low (hwork : Worked first before after)
    (hfst : dictionaryStart ≤ first) (haddr : addr + 4 ≤ dictionaryStart) :
    after.memory.cellAt addr = before.memory.cellAt addr := by
  have horder := order
  apply hwork.memory.cellAt
  rintro other _ hother (hin | hin)
  · rw [holds_mk] at hin
    omega
  · rw [controlRegion, holds_mk] at hin
    omega

/-- The machine compiles a definition whose code starts at `first`. -/
structure Underway (first : Nat) (draft : Draft) (m : Machine) : Prop where
  site : Site first draft m
  tracked : draft.Tracked first []
  compiling : m.Compiling

namespace Underway

variable {first : Nat} {draft next : Draft} {before after : Machine}

section

variable (hund : Underway first draft before)

include hund

theorem worked (hsite : Site first next after)
    (hwork : Worked first before after) (htrk : next.Tracked first []) : Underway first next after := by
  refine ⟨hsite, htrk, ?_⟩
  rw [Machine.Compiling, hwork.cellAt_of_low hsite.start_le (by decide)]
  exact hund.compiling

theorem of_performs {result : Option Draft} {action : WordM Unit}
    (hperforms : Performs first action draft (result.map fun next => ((), next)))
    (hact : action before = .ok () after) (htrk : ∀ next, result = some next → next.Tracked first []) :
    ∃ next, Underway first next after ∧ Worked first before after := by
  obtain ⟨next, hres, hsite, hwork⟩ := hperforms.of_ok hund.site hact
  exact ⟨next, hund.worked hsite hwork (htrk next hres), hwork⟩

theorem control {word : ControlWord} (hword : word.perform before = .ok () after) :
    ∃ next, Underway first next after ∧ Worked first before after :=
  hund.of_performs (ControlWord.performs word) hword fun _ hnext => hund.tracked.control hnext

theorem comma {value : Cell} (hplain : Plain value) (hcomma : comma value before = .ok () after) :
    ∃ next, Underway first next after ∧ Worked first before after :=
  hund.of_performs (performs_comma value) hcomma fun _ hnext => hund.tracked.emit hplain hnext

theorem acceptNumber {number : Number} (haccept : acceptNumber true number before = .ok () after) :
    ∃ next, Underway first next after ∧ Worked first before after :=
  hund.of_performs (performs_acceptNumber number) haccept fun _ hnext => hund.tracked.number hnext

theorem transfer (hb : after.Bounded)
    (hdict : after.dictionary = before.dictionary) (hctl : after.control = before.control)
    (hmem : Memory.SameOutside (Region.mk Layout.base dictionaryStart).Holds before.memory
      after.memory) : Underway first draft after := by
  have hstart := hund.site.start_le
  refine ⟨hund.site.transfer hb hdict hctl (hmem.mono fun addr hin => ?_),
    hund.tracked, ?_⟩
  · exact .inl (Nat.lt_of_lt_of_le hin.2 hstart)
  rw [Machine.Compiling, hmem.cellAt]
  · exact hund.compiling
  · rintro other _ hother hin
    rw [holds_mk] at hin
    change other < 8 at hother
    change 8 ≤ other ∧ _ at hin
    omega

end

theorem setCell (hund : Underway first draft before) {addr : Nat} (value : Cell)
    (hlow : Layout.base ≤ addr) (hhigh : addr + 4 ≤ dictionaryStart) :
    Underway first draft { before with memory := before.memory.setCell addr value } := by
  refine hund.transfer (hund.site.bounded.withMemory (Memory.size_setCell _ _ _)) rfl rfl ?_
  refine (Memory.sameOutside_setCell _ _ _).mono fun other hin => ?_
  rw [holds_mk] at hin ⊢
  omega

end Underway

/-! ### Text -/

theorem of_align_eq_ok (halign : moveHere align before = .ok () after) :
    aligned before.dictionary.here ≤ before.dictionary.names ∧
      after = { before with
        dictionary := { before.dictionary with here := aligned before.dictionary.here } } := by
  rw [moveHere, align] at halign
  by_cases hfull : before.dictionary.names < aligned before.dictionary.here
  · rw [if_pos hfull] at halign
    cases halign
  · rw [if_neg hfull] at halign
    cases halign
    exact ⟨Nat.le_of_not_lt hfull, rfl⟩

/-- A draft with bytes behind it, up to the next cell. -/
def Draft.padded (draft : Draft) (memory : Memory) (length : Nat) : Draft :=
  { draft with
    cells := fun address => if address + 4 ≤ draft.here then draft.cells address else memory.cellAt address
    here := aligned (draft.here + length) }

/-- The draft with a text of some length behind it, whose bytes are those in memory. -/
def Draft.withText (draft : Draft) (memory : Memory) (length : Nat) : Draft :=
  padded { draft with
    cells := put (put draft.cells draft.here (Cell.ofNat (Prim.thread .textLit).token)) (draft.here + 4)
      (Cell.ofNat length)
    here := draft.here + 8 } memory length

theorem Draft.withText_cells (draft : Draft) (memory : Memory) (length : Nat) :
    (∀ inner, inner + 4 ≤ draft.here → (draft.withText memory length).cells inner = draft.cells inner) ∧
      (draft.withText memory length).cells draft.here = Cell.ofNat (Prim.thread .textLit).token ∧
      (draft.withText memory length).cells (draft.here + 4) = Cell.ofNat length ∧
      ∀ inner, draft.here + 8 ≤ inner → (draft.withText memory length).cells inner = memory.cellAt inner := by
  have hlaid (inner : Nat) (hinner : inner + 4 ≤ draft.here + 8) : (draft.withText memory length).cells inner =
      put (put draft.cells draft.here (Cell.ofNat (Prim.thread .textLit).token)) (draft.here + 4) (Cell.ofNat length)
        inner := if_pos hinner
  refine ⟨fun inner hinner => ?_, ?_, ?_, fun inner hinner => if_neg ?_⟩
  · rw [hlaid inner (by omega), put_of_ne _ _ (by omega), put_of_ne _ _ (by omega)]
  · rw [hlaid _ (by omega), put_of_ne _ _ (by omega), put_self]
  · rw [hlaid _ (by omega), put_self]
  · change ¬ inner + 4 ≤ draft.here + 8
    omega

theorem Draft.Tracked.text {inHand : List Nat} {memory : Memory} {length : Nat} (htrk : draft.Tracked first inHand)
    (hlen : length < 2 ^ 31) (hroom : aligned (draft.here + 8 + length) ≤ draft.names) :
    (draft.withText memory length).Tracked first inHand := by
  obtain ⟨hbelow, hcall, hcount, _⟩ := draft.withText_cells memory length
  refine htrk.lay rfl rfl hroom (fun inner _ hinner _ => hbelow inner hinner) ?_ fun hjumps => absurd hjumps ?_
  · rw [instructionEnd_of_textLit hcall, hcount, Cell.toNatClampNeg_ofNat hlen]
    rfl
  · rw [hcall]
    exact not_jumps_token (by simp [Instruction.takesOffset])

/-- A definition grows by what was laid down behind it. -/
theorem Site.grow {finish : Nat} (hsite : Site first draft before)
    (hgrow : draft.here ≤ finish) (halign : finish % 4 = 0) (hroom : finish ≤ draft.names)
    (hafter : after = { before with
      memory := after.memory, dictionary := { before.dictionary with here := finish } })
    (hsame : Memory.SameOutside (Region.mk draft.here finish).Holds before.memory after.memory) :
    Site first { draft with
      cells := fun addr => if addr + 4 ≤ draft.here then draft.cells addr else after.memory.cellAt addr
      here := finish } after ∧ Worked first before after := by
  have hfits := hsite.bounded.dictionary
  have hfst := hsite.first_le
  have hend := hsite.names_le
  have hlow := hsite.top_ge
  have hnames := hsite.names_eq
  have hhere := hsite.here_eq
  have hctl : after.control = before.control := by rw [hafter]
  refine ⟨⟨?_, by rw [hafter], by rw [hafter]; exact hnames, hsite.start_le, Nat.le_trans hfst hgrow, halign, ?_, ?_, ?_,
    hsite.addresses, ?_⟩, ⟨?_, by rw [hafter], ?_⟩⟩
  · rw [hafter]
    exact (hsite.bounded.withMemory hsame.size).withDictionary
      ⟨hfits.start_eq, Nat.le_trans hfits.start_le (hhere ▸ hgrow), hnames ▸ hroom, hfits.names_le⟩
  · rintro addr ⟨hin, _, hmod⟩
    simp only
    split
    · next hold =>
      rw [hsame.cellAt fun other _ hother hin => by rw [holds_mk] at hin; omega]
      exact hsite.cells addr ⟨hin, hold, hmod⟩
    · rfl
  · rw [hctl]
    exact hsite.top_eq
  · rw [hctl]
    refine hsite.held.frame hsame fun addr haddr _ hin => ?_
    rw [holds_mk] at hin
    omega
  · intro marker hmark hfwd
    obtain ⟨hlow, hhigh, hmod⟩ := hsite.placeholders marker hmark hfwd
    exact ⟨hlow, Nat.le_trans hhigh hgrow, hmod⟩
  · rw [hafter]
  · refine hsame.mono fun addr hin => .inl ?_
    rw [hnames]
    rw [holds_mk] at hin ⊢
    omega

theorem Site.padded {bytes : List UInt8}
    (hsite : Site first draft before)
    (hbytes : (do bytes.forM commaByte; moveHere align : WordM Unit) before = .ok () after) :
    Site first (draft.padded after.memory bytes.length) after ∧ Worked first before after ∧
      aligned (draft.here + bytes.length) ≤ draft.names := by
  obtain ⟨_, middle, hforM, halign⟩ := of_bind_eq_ok hbytes
  obtain ⟨-, rfl⟩ := (commaBytes_eq_ok_iff hsite.bounded).1 hforM
  obtain ⟨hroom, hafter⟩ := of_align_eq_ok halign
  have hhere : (before.laid bytes).dictionary.here = draft.here + bytes.length :=
    congrArg (· + bytes.length) hsite.here_eq
  have hgrow := le_aligned (draft.here + bytes.length)
  have hsame := before.sameOutside_laid bytes
  have hmem : after.memory = (before.laid bytes).memory := by rw [hafter]
  rw [hsite.here_eq, ← hmem] at hsame
  rw [hhere] at hroom hafter
  have hfits : aligned (draft.here + bytes.length) ≤ draft.names := Nat.le_trans hroom (Nat.le_of_eq hsite.names_eq)
  obtain ⟨hpadded, hwork⟩ := hsite.grow (by omega) (aligned_mod _) hfits (hafter.trans (by rw [hmem]; rfl))
    (hsame.mono fun addr hin => by rw [holds_mk] at hin ⊢; omega)
  exact ⟨hpadded, hwork, hfits⟩

/-- A text is laid down in whole cells. -/
theorem Site.compileText {text : Source} (hsite : Site first draft before)
    (htext : InputWord.compileText text before = .ok () after) :
    (before.memory.bytesAt text.address text.length).length = text.length ∧ text.length < 2 ^ 31 ∧
      aligned (draft.here + 8 + text.length) ≤ draft.names ∧
      Site first (draft.withText after.memory text.length) after ∧ Worked first before after ∧
      after.memory.bytesAt (draft.here + 8) text.length = before.memory.bytesAt text.address text.length := by
  obtain ⟨_, start, hread, hlay⟩ := of_bind_eq_ok htext
  obtain ⟨hread, rfl⟩ := of_ask_eq_ok hread
  obtain ⟨_, hcheck, hbytes⟩ := of_question_eq_ok hread
  have hrange := Memory.of_check_eq_ok hcheck
  have hlen := Memory.length_bytesAt _ _ _ hrange
  have hsize := hsite.bounded.size_eq
  have horder := order
  cases hbytes
  obtain ⟨_, called, hcall, hlay⟩ := of_bind_eq_ok hlay
  obtain ⟨_, counted, hcount, hlay⟩ := of_bind_eq_ok hlay
  obtain ⟨_, hemit, hcalled, hworkedCall⟩ := (performs_compile _).of_ok hsite hcall
  obtain ⟨_, hemit', hcounted, hworkedCount⟩ := (performs_comma _).of_ok hcalled hcount
  obtain ⟨_, rfl⟩ := of_emit_eq_some hemit
  obtain ⟨_, rfl⟩ := of_emit_eq_some hemit'
  obtain ⟨hpadded, hwork, hroom⟩ := hcounted.padded hlay
  rw [hlen] at hpadded hroom
  refine ⟨hlen, by omega, hroom, hpadded, (hworkedCall.trans hworkedCount).trans hwork, ?_⟩
  obtain ⟨_, _, hforM, halign⟩ := of_bind_eq_ok hlay
  obtain ⟨hfits, rfl⟩ := (commaBytes_eq_ok_iff hcounted.bounded).1 hforM
  have hnames := hcounted.bounded.dictionary.names_le
  have hhere : counted.dictionary.here = draft.here + 8 := hcounted.here_eq
  have hheld := Memory.bytesAt_setBytes counted.memory counted.dictionary.here
    (start.memory.bytesAt text.address text.length) (by rw [hcounted.bounded.size_eq]; omega)
  rw [(of_align_eq_ok halign).2, ← hhere]
  rwa [hlen] at hheld

theorem Underway.compileText {text : Source}
    (hund : Underway first draft before) (htext : InputWord.compileText text before = .ok () after) :
    ∃ next, Underway first next after ∧ Worked first before after := by
  obtain ⟨_, hlen, hroom, hsite, hwork, _⟩ := hund.site.compileText htext
  exact ⟨_, hund.worked hsite hwork (hund.tracked.text hlen hroom), hwork⟩

/-! ### Words inside a definition -/

/-- The primitive may be executed while a definition is compiled. A word that calls itself must not
be one of the words that take something from the thread. -/
def Structural (m : Machine) : Prim → Prop
  | .control _ => True
  | .input .textQuote | .input .dotQuote | .input .abortQuote => True
  | .input .comment | .input .lineComment => True
  | .defining .does => True
  | .defining .recurse => Plain (Cell.ofNat (Header.token m.dictionary.latest))
  | _ => False

theorem Worked.ip_eq (hwork : Worked first before after) : after.ip = before.ip := by
  rw [hwork.machine]

namespace Underway

variable {first : Nat} {draft : Draft} {before after : Machine}

theorem isCompiling (hund : Underway first draft before) : isCompiling before = .ok true before := by
  rw [isCompiling_eq hund.site.bounded]
  exact congrArg (EStateM.Result.ok · before) (bne_iff_ne.2 hund.compiling)

theorem parse (hund : Underway first draft before) {delimiter : UInt8} {text : Source}
    (hparse : parse delimiter before = .ok text after) : Underway first draft after ∧ after.ip = before.ip := by
  obtain ⟨toIn, rfl⟩ := of_parse_eq_ok hund.site.bounded hparse
  exact ⟨hund.setCell toIn (by decide) (by decide), rfl⟩

variable {prim : Prim}

variable (hund : Underway first draft before)

include hund

theorem compile (hplain : Plain (Cell.ofNat prim.token)) (hcompile : compile prim before = .ok () after) :
    ∃ next, Underway first next after ∧ Worked first before after :=
  hund.comma hplain hcompile

theorem perform {request : Option Request}
    (hprim : Structural before prim) (hperf : prim.perform before = .ok request after) :
    request = none ∧ (∃ next, Underway first next after) ∧ after.ip = before.ip := by
  match prim, hprim with
  | .control word, _ =>
    obtain ⟨_, done, hword, hnone⟩ := of_bind_eq_ok hperf
    cases hnone
    obtain ⟨next, hnext, hwork⟩ := hund.control hword
    exact ⟨rfl, ⟨next, hnext⟩, hwork.ip_eq⟩
  | .defining .does, _ =>
    obtain ⟨_, done, hword, hnone⟩ := of_bind_eq_ok hperf
    cases hnone
    obtain ⟨next, hnext, hwork⟩ := hund.compile (plain_token (by simp [Instruction.takesOffset])) hword
    exact ⟨rfl, ⟨next, hnext⟩, hwork.ip_eq⟩
  | .defining .recurse, hplain =>
    obtain ⟨_, done, hword, hnone⟩ := of_bind_eq_ok hperf
    cases hnone
    obtain ⟨latest, _, hlatest, hcomma⟩ := of_bind_eq_ok hword
    obtain ⟨hlatest, rfl⟩ := of_ask_eq_ok hlatest
    cases hlatest
    obtain ⟨next, hnext, hwork⟩ := hund.comma hplain hcomma
    exact ⟨rfl, ⟨next, hnext⟩, hwork.ip_eq⟩
  | .input .comment, _ =>
    obtain ⟨_, done, hparse, hnone⟩ := of_bind_eq_ok hperf
    cases hnone
    obtain ⟨text, parsed, hparse, hunit⟩ := of_bind_eq_ok hparse
    cases hunit
    obtain ⟨hparsed, hip⟩ := hund.parse hparse
    exact ⟨rfl, ⟨draft, hparsed⟩, hip⟩
  | .input .lineComment, _ =>
    obtain ⟨length, _, hlen, hrest⟩ := of_bind_eq_ok hperf
    obtain ⟨_, rfl⟩ := of_ask_eq_ok hlen
    obtain ⟨_, done, hwrite, hnone⟩ := of_bind_eq_ok hrest
    cases hnone
    rw [writeCell_of_low hund.site.bounded _ (by decide) (by decide)] at hwrite
    cases hwrite
    exact ⟨rfl, ⟨draft, hund.setCell _ (by decide) (by decide)⟩, rfl⟩
  | .input .textQuote, _ =>
    obtain ⟨text, parsed, hparse, hrest⟩ := of_bind_eq_ok hperf
    obtain ⟨hparsed, hip⟩ := hund.parse hparse
    obtain ⟨_, done, htext, hnone⟩ := of_bind_eq_ok ((bind_of_ok hparsed.isCompiling).symm.trans hrest)
    cases hnone
    obtain ⟨next, hnext, hwork⟩ := hparsed.compileText htext
    exact ⟨rfl, ⟨next, hnext⟩, hwork.ip_eq.trans hip⟩
  | .input .dotQuote, _ =>
    obtain ⟨text, parsed, hparse, hrest⟩ := of_bind_eq_ok hperf
    obtain ⟨hparsed, hip⟩ := hund.parse hparse
    obtain ⟨_, laid, htext, hrest⟩ := of_bind_eq_ok ((bind_of_ok hparsed.isCompiling).symm.trans hrest)
    obtain ⟨_, done, htype, hnone⟩ := of_bind_eq_ok hrest
    cases hnone
    obtain ⟨next, hnext, hwork⟩ := hparsed.compileText htext
    obtain ⟨last, hlast, hworked'⟩ := hnext.compile (plain_token (by simp)) htype
    exact ⟨rfl, ⟨last, hlast⟩, (hwork.trans hworked').ip_eq.trans hip⟩
  | .input .abortQuote, _ =>
    obtain ⟨text, parsed, hparse, hrest⟩ := of_bind_eq_ok hperf
    obtain ⟨hparsed, hip⟩ := hund.parse hparse
    obtain ⟨_, laid, htext, hrest⟩ := of_bind_eq_ok hrest
    obtain ⟨_, done, htest, hnone⟩ := of_bind_eq_ok hrest
    cases hnone
    obtain ⟨next, hnext, hwork⟩ := hparsed.compileText htext
    obtain ⟨last, hlast, hworked'⟩ := hnext.compile (plain_token (by simp [Instruction.takesOffset])) htest
    exact ⟨rfl, ⟨last, hlast⟩, (hwork.trans hworked').ip_eq.trans hip⟩

theorem withIp (ip : Nat) : Underway first draft { before with ip } :=
  hund.transfer { hund.site.bounded with } rfl rfl (Memory.SameOutside.refl _ _)

theorem interpretNumber {token : String} (hnumber : interpretNumber true token before = .ok () after) :
    ∃ next, Underway first next after := by
  obtain ⟨base, _, hbase, hread⟩ := of_bind_eq_ok hnumber
  obtain ⟨_, rfl⟩ := of_ask_eq_ok hbase
  cases hres : Number.read? base token with
  | none =>
    simp only [hres] at hread
    split at hread <;> cases hread
  | some result =>
    obtain ⟨number, pointCount⟩ := result
    simp only [hres] at hread
    obtain ⟨_, noted, hnote, haccept⟩ := of_bind_eq_ok hread
    rw [writeCell_of_low hund.site.bounded _ (by decide) (by decide)] at hnote
    cases hnote
    have hnoted := hund.setCell pointCount (show Layout.base ≤ Layout.pointCount by decide) (by decide)
    obtain ⟨next, hnext, _⟩ := hnoted.acceptNumber haccept
    exact ⟨next, hnext⟩

end Underway

/-- A word that may stand inside a definition: one that is compiled and takes nothing from the thread,
one of the words that are executed, or a number. -/
inductive Allowed (m : Machine) (token : String) : Prop where
  | word {header : Header} (hfind : m.findHeader? token = .ok (some header))
      (himm : header.isImmediate = false) (hplain : Plain (Cell.ofNat header.xt))
  | structural {header : Header} {prim : Prim} (hfind : m.findHeader? token = .ok (some header))
      (himm : header.isImmediate = true) (hcode : Code.ofCell? header.code = some (.prim prim))
      (hprim : Structural m prim)
  | number (hfind : m.findHeader? token = .ok none)

theorem Underway.token {fuel : Nat} {token : String}
    (hund : Underway first draft before) (hallowed : Allowed before token)
    (htoken : interpretToken (serve fuel) token before = .ok () after) :
    ∃ next, Underway first next after := by
  have hb := hund.site.bounded
  have hcpl := hund.compiling
  cases hallowed with
  | word hfind himm hplain =>
    rw [interpretToken_of_compiled hb hcpl hfind himm] at htoken
    obtain ⟨next, hnext, _⟩ := hund.comma hplain (of_run_eq_ok htoken)
    exact ⟨next, hnext⟩
  | structural hfind himm hcode hprim =>
    rw [interpretToken_of_immediate hb hcpl hfind himm] at htoken
    obtain ⟨request, middle, hperf, hafter⟩ := of_serve_execute_eq_ok
      (readCell_of_findHeader? hfind) hcode htoken
    obtain ⟨hrequest, ⟨next, hnext⟩, hip⟩ := (hund.withIp 0).perform hprim hperf
    rw [hafter hrequest hip]
    exact ⟨next, hnext.withIp before.ip⟩
  | number hfind =>
    rw [interpretToken_of_unknown hb hfind, bne_iff_ne.2 hcpl] at htoken
    exact hund.interpretNumber (of_run_eq_ok htoken)

/-- Between two words the source may move on: another line is read, or the offset is moved. -/
structure Aside (before after : Machine) : Prop where
  data : after.data = before.data
  returns : after.returns = before.returns
  control : after.control = before.control
  dictionary : after.dictionary = before.dictionary
  memory : Memory.SameOutside (Region.mk toIn pad).Holds before.memory after.memory

/-- Words are compiled into a definition. -/
inductive Body : Machine → Machine → Prop where
  | done (m : Machine) : Body m m
  | aside {before middle after : Machine} (haside : Aside before middle) (hrest : Body middle after) :
      Body before after
  | token {before middle after : Machine} {fuel : Nat} {token : String} (hallowed : Allowed before token)
      (htoken : interpretToken (serve fuel) token before = .ok () middle)
      (hrest : Body middle after) : Body before after

theorem Underway.aside
    (hund : Underway first draft before) (haside : Aside before after) : Underway first draft after := by
  have hb := hund.site.bounded
  refine hund.transfer ?_ haside.dictionary haside.control (haside.memory.mono fun addr hin => ?_)
  · refine ⟨haside.memory.size.trans hb.size_eq, ?_, ?_, ?_, ?_, ?_⟩
    · rw [haside.data]; exact hb.data
    · rw [haside.returns]; exact hb.returns
    · rw [haside.control]; exact hb.control
    · rw [haside.control]; exact hb.paired
    · rw [haside.dictionary]; exact hb.dictionary
  · rw [holds_mk] at hin ⊢
    have horder := order
    omega

theorem Underway.body (hund : Underway first draft before) (hbody : Body before after) :
    ∃ next, Underway first next after := by
  induction hbody generalizing draft with
  | done m => exact ⟨draft, hund⟩
  | aside haside _ ih => exact ih (hund.aside haside)
  | token hallowed htoken _ ih =>
    obtain ⟨next, hnext⟩ := hund.token hallowed htoken
    exact ih hnext

/-! ### Opening and closing -/

/-- The header of a definition has just been laid down. -/
structure Headed (token : Nat) (m : Machine) : Prop where
  bounded : m.Bounded
  control : m.control.top = m.control.base
  token_eq : token = Header.token m.dictionary.latest
  isAligned : token % 4 = 0
  start_le : dictionaryStart ≤ token
  here_eq : m.dictionary.here = body token

namespace Headed

variable {token : Nat} {m : Machine}

variable (hheaded : Headed token m)

include hheaded

theorem site :
    Site (body token)
      ⟨m.memory.cellAt, m.dictionary.here, m.dictionary.names, []⟩ m := by
  have halign := hheaded.isAligned
  have hstart := hheaded.start_le
  have hhere := hheaded.here_eq
  rw [body] at hhere ⊢
  refine ⟨hheaded.bounded, rfl, rfl, by omega, Nat.le_of_eq hhere.symm, ?_, fun _ _ => rfl,
    hheaded.control, trivial, nofun, nofun⟩
  change m.dictionary.here % 4 = 0
  omega

theorem tracked :
    Draft.Tracked (body token) [] ⟨m.memory.cellAt, m.dictionary.here,
      m.dictionary.names, [⟨.colon, token⟩]⟩ := by
  have halign := hheaded.isAligned
  have hhere := hheaded.here_eq
  have hnames := hheaded.site.names_le
  have hend : dictionaryEnd < 2 ^ 30 := by decide
  refine ⟨hheaded.bounded.dictionary.here_le, Nat.lt_of_le_of_lt hnames hend, ⟨?_, ?_, ?_, ?_⟩, ?_⟩
  · rw [body]
    omega
  · rw [hhere]
    exact Boundary.start _ _
  · intro addr hbdry hlt
    have hfst := hbdry.first_le
    change addr < m.dictionary.here at hlt
    omega
  · rintro place (⟨marker, hmark, hfwd, _⟩ | hin)
    · cases List.mem_singleton.1 hmark
      cases hfwd
    · cases hin
  · intro marker hmark
    cases List.mem_singleton.1 hmark
    exact ⟨nofun, fun _ => rfl⟩

/-- Once its marker is left, the definition is under way. -/
theorem underway {marked : Machine} (hmark : pushMarker ⟨.colon, token⟩ m = .ok () marked)
    (hcpl : setCompiling true marked = .ok () after) :
    ∃ draft, Underway (body (Header.token after.dictionary.latest)) draft after ∧
      after.ip = m.ip ∧ draft.here = body (Header.token after.dictionary.latest) := by
  have hlow := hheaded.start_le
  have hhere := hheaded.site.here_lt
  have hfst : token < m.dictionary.here := by
    rw [hheaded.here_eq, body]
    omega
  change m.dictionary.here < 2 ^ 30 at hhere
  have haddr : token < 2 ^ 31 := by omega
  obtain ⟨next, hnext, hmarked, hwork⟩ := (@performs_pushMarker _ _ ⟨.colon, token⟩ haddr
    fun hfwd => by cases hfwd).of_ok hheaded.site hmark
  rw [setCompiling, writeCell_of_low hmarked.bounded _ (by decide) (by decide)] at hcpl
  cases hcpl
  have hlatest : Header.token marked.dictionary.latest = token := by
    rw [hwork.dictionary]
    exact hheaded.token_eq.symm
  have hstate := Memory.sameOutside_setCell marked.memory state (Cell.ofBool true)
  have hfinal := hmarked.transfer (hmarked.bounded.withMemory (Memory.size_setCell _ _ _)) rfl rfl
    (hstate.mono fun addr hin => .inl ?_)
  · have hnextHere : next.here = body token := by
      cases hnext
      exact hheaded.here_eq
    simp only [hlatest]
    refine ⟨next, ?_, hwork.ip_eq, hnextHere⟩
    refine ⟨hfinal, ?_, ?_⟩
    · cases hnext
      exact hheaded.tracked
    · rw [Machine.Compiling, Memory.cellAt_setCell]
      · decide
      · rw [hmarked.bounded.size_eq]
        decide
  · rw [holds_mk] at hin
    have hstate : state + 4 ≤ dictionaryStart := by decide
    rw [body]
    omega

end Headed

/-- A header is laid down on an empty control stack. -/
theorem headed_of_enter {name : List UInt8} {code : Cell} {token : Nat}
    (hb : before.Bounded) (hctl : before.control.top = before.control.base)
    (henter : onDictionary (fun dictionary => dictionary.enter name flags code) before = .ok token after) :
    Headed token after ∧ after.ip = before.ip := by
  have hkeeps : Keeps Machine.Bounded (onDictionary fun dictionary => dictionary.enter name flags code) :=
    keeps_onDictionary fun hfits hsize => enter_fits name flags code hfits hsize
  have hafter : after.Bounded := Keeps.of_ok hb henter
  have hnames := hb.dictionary.names_le
  have hstart := hb.dictionary.start_le
  rw [hb.dictionary.start_eq] at hstart
  have horder := order
  rw [onDictionary] at henter
  rcases @Dictionary.enter_cases before.dictionary before.memory name flags code
    (by rw [hb.size_eq]; omega) with ⟨fault, herror⟩ | ⟨_, _, _, hok⟩
  · rw [herror] at henter
    cases henter
  · have halign := aligned_mod before.dictionary.here
    have hgrow := le_aligned before.dictionary.here
    rw [hok] at henter
    cases henter
    refine ⟨⟨hafter, hctl, rfl, ?_, ?_, rfl⟩, rfl⟩
    · rw [Header.token]
      omega
    · rw [Header.token]
      omega

theorem of_needIdle_eq_ok (hb : before.Bounded)
    (hidle : DefiningWord.needIdle before = .ok () after) :
    after = before ∧ before.control.top = before.control.base := by
  obtain ⟨depth, _, hdepth, hrest⟩ := of_bind_eq_ok hidle
  obtain ⟨hdepth, rfl⟩ := of_ask_eq_ok hdepth
  cases hdepth
  split at hrest
  · cases hrest
  · next hzero =>
    cases hrest
    have hpaired := hb.paired
    have htop := hb.control.top_le
    rw [Stack.depth] at hzero
    exact ⟨rfl, by omega⟩

/-- A word that was created under a name from the source. -/
theorem enter_of_define_eq_ok {token : Nat}
    (hb : before.Bounded) (hdefine : DefiningWord.define flags code before = .ok token after) :
    ∃ name toIn reports, requireName before =
        .ok name { before with memory := before.memory.setCell Layout.toIn toIn } ∧
      onDictionary (fun dictionary => dictionary.enter (Utf8.encode name) flags code.toCell)
        { before with memory := before.memory.setCell Layout.toIn toIn, reports } = .ok token after := by
  obtain ⟨name, named, hname, hrest⟩ := of_bind_eq_ok hdefine
  obtain ⟨toIn, rfl⟩ := of_requireName_eq_ok hb hname
  obtain ⟨_, warned, hwarn, hcreate⟩ := of_bind_eq_ok hrest
  have hwarned : warned = { before with
      memory := before.memory.setCell Layout.toIn toIn, reports := warned.reports } := by
    obtain ⟨found, _, hfound, hreport⟩ := of_bind_eq_ok hwarn
    cases (of_ask_eq_ok hfound).2
    split at hreport
    · cases hreport
      rfl
    · cases hreport
      rfl
  rw [hwarned] at hcreate
  by_cases hempty : name.isEmpty = true
  · rw [onDictionary, create, if_pos hempty] at hcreate
    cases hcreate
  · have henter : (fun dictionary : Dictionary => dictionary.create name flags code.toCell) =
        fun dictionary => dictionary.enter (Utf8.encode name) flags code.toCell := by
      funext dictionary
      rw [create, if_neg hempty]
    rw [henter] at hcreate
    exact ⟨name, toIn, warned.reports, hname, hcreate⟩

theorem of_define_eq_ok {token : Nat}
    (hb : before.Bounded) (hctl : before.control.top = before.control.base)
    (hdefine : DefiningWord.define flags code before = .ok token after) :
    Headed token after ∧ after.ip = before.ip := by
  obtain ⟨name, toIn, reports, _, hcreate⟩ := enter_of_define_eq_ok hb hdefine
  have hwarned : Machine.Bounded { before with memory := before.memory.setCell Layout.toIn toIn, reports } :=
    { hb.withMemory (Memory.size_setCell _ _ _) with }
  obtain ⟨hheaded, hip⟩ := headed_of_enter hwarned hctl hcreate
  exact ⟨hheaded, hip⟩

theorem underway_of_colon (hb : before.Bounded)
    (hcolon : DefiningWord.colon.perform before = .ok () after) :
    ∃ draft, Underway (body (Header.token after.dictionary.latest)) draft after ∧
      after.ip = before.ip ∧ draft.here = body (Header.token after.dictionary.latest) := by
  obtain ⟨_, _, hidle, hrest⟩ := of_bind_eq_ok hcolon
  obtain ⟨rfl, hctl⟩ := of_needIdle_eq_ok hb hidle
  obtain ⟨token, entered, hdefine, hrest⟩ := of_bind_eq_ok hrest
  obtain ⟨_, marked, hmark, hcpl⟩ := of_bind_eq_ok hrest
  obtain ⟨hheaded, hip⟩ := of_define_eq_ok hb hctl hdefine
  obtain ⟨draft, hund, hip', hfst⟩ := hheaded.underway hmark hcpl
  exact ⟨draft, hund, hip'.trans hip, hfst⟩

/-- `:NONAME` opens a definition, and pushes its token. -/
theorem underway_of_nameless (hb : before.Bounded)
    (hnameless : DefiningWord.nameless.perform before = .ok () after) :
    ∃ draft, Underway (body (Header.token after.dictionary.latest)) draft after ∧
      after.ip = before.ip ∧ draft.here = body (Header.token after.dictionary.latest) := by
  obtain ⟨_, _, hidle, hrest⟩ := of_bind_eq_ok hnameless
  obtain ⟨rfl, hctl⟩ := of_needIdle_eq_ok hb hidle
  obtain ⟨token, entered, hcreate, hrest⟩ := of_bind_eq_ok hrest
  obtain ⟨_, marked, hmark, hrest⟩ := of_bind_eq_ok hrest
  obtain ⟨_, opened, hcpl, hpush⟩ := of_bind_eq_ok hrest
  obtain ⟨hheaded, hip⟩ := headed_of_enter hb hctl hcreate
  obtain ⟨draft, hund, hip', hfst⟩ := hheaded.underway hmark hcpl
  have hopened := hund.site.bounded
  have hafter : after.Bounded := Keeps.of_ok hopened hpush
  have hpushed : after = { opened with data := after.data, memory := after.memory } ∧
      Memory.SameOutside dataRegion.Holds opened.memory after.memory := by
    rw [pushNat, push, pushing] at hpush
    rcases Stack.push_cases hopened.data hopened.size_eq (Cell.ofNat token) with herror | ⟨hok, hlower⟩
    · rw [herror] at hpush
      cases hpush
    · rw [hok] at hpush
      cases hpush
      have hlow := hlower.limit_le
      have hhigh := hopened.data.top_le
      rw [hlower.limit_eq] at hlow
      rw [hopened.data.base_eq] at hhigh
      refine ⟨rfl, (Memory.sameOutside_setCell _ _ _).mono fun addr hin => ?_⟩
      rw [holds_mk] at hin
      change dataRegion.start ≤ opened.data.top - 4 at hlow
      have hregion : 4 ≤ dataRegion.start := by decide
      exact ⟨by omega, by omega⟩
  have hdict : after.dictionary = opened.dictionary := by rw [hpushed.1]
  have hcontrol' : after.control = opened.control := by rw [hpushed.1]
  have hregion : returnStack ≤ dataRegion.start := by decide
  rw [hdict]
  refine ⟨draft, ?_, ?_, hfst⟩
  · refine ⟨hund.site.transfer hafter hdict hcontrol' (hpushed.2.mono fun addr hin => .inr ?_),
      hund.tracked, ?_⟩
    · exact Nat.le_trans hregion hin.1
    · rw [Machine.Compiling, hpushed.2.cellAt]
      · exact hund.compiling
      · intro other _ hother hin
        have horder := order
        have hstart := hin.1
        omega
  · rw [hpushed.1]
    exact hip'.trans hip

theorem reveal_eq {m : Machine} (hb : m.Bounded) {header : Nat}
    (hrange : header + size ≤ memorySize) (halign : header % 4 = 0) :
    (do onMemory (clearFlag header smudged); setCompiling false : WordM Unit) m =
      .ok () { m with memory := ((m.memory.setCell (flagsField header)
        (m.memory.cellAt (flagsField header) &&& ~~~smudged)).setCell state 0) } := by
  have hsize : size = 20 := rfl
  have hread : m.memory.readCell (flagsField header) =
      .ok (m.memory.cellAt (flagsField header)) :=
    Memory.readCell_eq_ok (by rw [hb.size_eq, flagsField]; omega)
      (by rw [flagsField]; omega)
  have hclear : onMemory (clearFlag header smudged) m = .ok () { m with
      memory := m.memory.setCell (flagsField header)
        (m.memory.cellAt (flagsField header) &&& ~~~smudged) } := by
    rw [onMemory, clearFlag, hread]
    simp only [Memory.writeCell_eq_ok (m.memory.cellAt (flagsField header) &&& ~~~smudged)
      (show flagsField header + 4 ≤ m.memory.size by
        rw [hb.size_eq, flagsField]; omega)
      (show flagsField header % 4 = 0 by rw [flagsField]; omega)]
  refine (bind_of_ok hclear).trans ?_
  exact writeCell_of_low (hb.withMemory (Memory.size_setCell _ _ _)) _ (by decide) (by decide)

/-- What `;` leaves: the code that was under way with `EXIT` behind it, and no marker. -/
theorem Site.close (hsite : Site first draft before)
    (htrk : draft.Tracked first []) (hclose : DefiningWord.semicolon.perform before = .ok () after) :
    (∃ marker, marker.tag = .colon ∧ draft.markers = [marker]) ∧ after.control.top = after.control.base ∧
      after.dictionary.here = draft.here + 4 ∧ after.dictionary.latest = before.dictionary.latest ∧
      after.ip = before.ip ∧ Agree first draft.here draft.cells after.memory.cellAt ∧
      after.memory.cellAt draft.here = Cell.ofNat (Prim.thread .exit).token := by
  obtain ⟨depth, _, hdepth, hrest⟩ := of_bind_eq_ok hclose
  obtain ⟨_, hlen, _, _⟩ := @performs_markerDepth first draft before hsite
  cases hdepth.symm.trans hlen
  cases (of_ask_eq_ok hdepth).2
  split at hrest
  · cases hrest
  · next hone =>
    obtain ⟨marker, hmarks⟩ : ∃ marker, draft.markers = [marker] :=
      List.length_eq_one_iff.1 (Decidable.not_not.1 hone)
    obtain ⟨found, popped, hpop, hrest⟩ := of_bind_eq_ok hrest
    obtain ⟨_, hpopped, htaken, hwork⟩ := performs_popMarker hmarks before hsite
    cases hpop.symm.trans hpopped
    split at hrest
    · cases hrest
    · next hcolon =>
      have hcolon : marker.tag = .colon := Decidable.not_not.1 hcolon
      obtain ⟨_, ended, hexit, hreveal⟩ := of_bind_eq_ok hrest
      obtain ⟨_, hemit, hended, hworked'⟩ := (performs_compile _).of_ok htaken hexit
      obtain ⟨hroom, rfl⟩ := of_emit_eq_some hemit
      have hfst : body marker.address = first :=
        (htrk.markers marker (by rw [hmarks]; exact List.mem_cons_self)).header hcolon
      have hstart := hsite.start_le
      have hlow : 20 ≤ dictionaryStart := by decide
      have horder := order
      have hlast := hsite.here_le
      have hfirstLe := hsite.first_le
      have hmod := htrk.coded.isAligned
      have hhdr : ofToken marker.address + 20 = first := by
        rw [body] at hfst
        rw [ofToken]
        omega
      have hsize : size = 20 := rfl
      rw [reveal_eq hended.bounded (by omega) (by omega)] at hreveal
      have hrevealed := (EStateM.Result.ok.inj hreveal).2
      have hmem : Memory.SameOutside (Elsewhere first) ended.memory after.memory := by
        rw [← hrevealed]
        refine ((Memory.sameOutside_setCell _ _ _).mono fun addr hin => .inl ?_).trans
          ((Memory.sameOutside_setCell _ _ _).mono fun addr hin => .inl ?_)
        · rw [holds_mk] at hin
          omega
        · rw [holds_mk, flagsField] at hin
          omega
      have hafter : after = { ended with memory := after.memory } := by
        rw [← hrevealed]
      have hb : after.Bounded := by
        rw [hafter]
        exact hended.bounded.withMemory hmem.size
      have hdict : after.dictionary = ended.dictionary := by rw [hafter]
      have hfinal := hended.transfer hb hdict (by rw [hafter]) hmem
      have hboth := hwork.trans hworked'
      refine ⟨⟨marker, hcolon, hmarks⟩, hfinal.top_eq, hfinal.here_eq, ?_, ?_,
        fun inner hlow hhigh halign => ?_, ?_⟩
      · rw [hdict, hboth.dictionary]
      · rw [hafter]
        exact hboth.ip_eq
      · rw [hfinal.cells inner ⟨hlow, Nat.le_trans hhigh (Nat.le_add_right _ _), halign⟩]
        exact put_of_ne _ _ (show inner ≠ draft.here by omega)
      · rw [hfinal.cells draft.here ⟨hfirstLe, Nat.le_refl _, hsite.isAligned⟩]
        exact put_self _ _ _

theorem Site.lands_of_close (hsite : Site first draft before) (htrk : draft.Tracked first [])
    (hclose : DefiningWord.semicolon.perform before = .ok () after)
    (hbdry : Boundary after.memory.cellAt first addr) (hle : addr ≤ draft.here)
    (hjumps : Jumps (after.memory.cellAt addr)) : Lands after.memory.cellAt first draft.here addr := by
  obtain ⟨⟨marker, hcolon, hmarks⟩, _, _, _, _, hagree, hexit⟩ := hsite.close htrk hclose
  have hcoded := htrk.coded
  have hmod := hcoded.isAligned
  have hfin : Boundary after.memory.cellAt first draft.here := hcoded.finish.congr hmod hagree (Nat.le_refl _)
  have hlt : addr < draft.here := by
    refine Nat.lt_of_le_of_ne hle ?_
    rintro rfl
    rw [hexit] at hjumps
    exact not_jumps_token (by simp [Instruction.takesOffset]) hjumps
  have hend := hbdry.end_le hfin hlt
  rw [instructionEnd_of_jumps hjumps] at hend
  have hstart := hbdry.congr hmod hagree.symm hle
  have hcell := hagree addr hbdry.first_le (by omega) (hbdry.mod_eq hmod)
  rcases hcoded.branches addr hstart hlt (hcell ▸ hjumps) with (hawaits | hin) | hlands
  · obtain ⟨waiting, hwaiting, hfwd, _⟩ := hawaits
    rw [hmarks, List.mem_singleton] at hwaiting
    rw [hwaiting, hcolon] at hfwd
    cases hfwd
  · cases hin
  · exact hlands.congr hstart hmod hend hagree (Nat.le_refl _)

end ThreadedForth
