
import Mathlib.Data.List.Forall2
import ThreadedForth.Proofs.Compiler.Definition
import ThreadedForth.Proofs.Interpreter.Lexicon
import ThreadedForth.Proofs.Structured.Layout

/-!
# Compiling text

A definition is opened by its name, its words are compiled one after the other, and it is closed. Here is what
the outer interpreter makes of such a text if there is room for it, word by word: a draft of the code while
the definition is open, and an entry of the dictionary in the end.
-/

namespace ThreadedForth

open WordM Dictionary Layout Utf8 Header Region Text
open Memory (SameOutside cellAt cellAt_setCell cellAt_setCell_of_apart sameOutside_setCell size_setCell)
open Interpreter

variable {addr : Nat} {m : Machine}

/-! ### What defining leaves alone -/

/-- The bytes that defining a word may change when its definition starts at `limit`. The base of numbers is none
of them, nor are the data stack and the return stack. -/
def DefiningArea (limit address : Nat) : Prop :=
  (address < dictionaryStart ∨ limit ≤ address) ∧ address < returnStack ∧
    ¬ (Region.mk Layout.base Layout.toIn).Holds address

/-- Defining a word leaves the rest of the machine alone. -/
structure Undisturbed (limit : Nat) (before after : Machine) : Prop where
  machine : after = { before with
    memory := after.memory, control := after.control, dictionary := after.dictionary
    source := after.source, reports := after.reports }
  memory : SameOutside (DefiningArea limit) before.memory after.memory

namespace Undisturbed

variable {limit lower : Nat} {before middle after : Machine}

theorem refl (limit : Nat) (m : Machine) : Undisturbed limit m m :=
  ⟨rfl, Memory.SameOutside.refl _ _⟩

theorem trans (hfst : Undisturbed limit before middle) (hsnd : Undisturbed limit middle after) :
    Undisturbed limit before after := by
  refine ⟨?_, hfst.memory.trans hsnd.memory⟩
  rw [hsnd.machine, hfst.machine]

section

variable (hundist : Undisturbed limit before after)

include hundist

theorem mono (hlower : lower ≤ limit) : Undisturbed lower before after :=
  ⟨hundist.machine, hundist.memory.mono fun _ ⟨hplace, hrest⟩ =>
    ⟨hplace.imp_right (Nat.le_trans hlower), hrest⟩⟩

theorem exiting_eq : after.exiting = before.exiting := by
  rw [hundist.machine]

theorem base_eq : after.base = before.base := by
  rw [Machine.base, Machine.base, hundist.memory.readCell fun other hlow hhigh hin => hin.2.2 ⟨hlow, hhigh⟩]

end

theorem cellAt_eq (hundist : Undisturbed limit before after)
    (hlow : dictionaryStart ≤ addr) (hhigh : addr + 4 ≤ limit) :
    after.memory.cellAt addr = before.memory.cellAt addr := by
  refine hundist.memory.cellAt fun other hfst hlast hin => ?_
  rcases hin.1 with hout | hout <;> omega

theorem setCell (limit : Nat) (m : Machine) (value : Cell)
    (haddr : addr + 4 ≤ dictionaryStart) (hbase : Layout.toIn ≤ addr ∨ addr + 4 ≤ Layout.base) :
    Undisturbed limit m { m with memory := m.memory.setCell addr value } := by
  refine ⟨rfl, (sameOutside_setCell _ _ _).mono fun other hin => ?_⟩
  have horder := order
  rw [holds_mk] at hin
  refine ⟨.inl (by omega), by omega, fun hother => ?_⟩
  rw [holds_mk] at hother
  omega

end Undisturbed

/-! ### Drafts -/

/-- The machine compiles a definition whose code starts at `first`, above the entries of the dictionary. -/
structure Drafting (entries : List Header) (first : Nat) (draft : Draft) (m : Machine) : Prop where
  site : Site first draft m
  lexicon : Lexicon entries m
  below : ∀ entry ∈ entries, entry.address + size ≤ first
  compiling : m.Compiling

/-- The action makes the next draft of the one that there is, or fails. -/
def Draws (entries : List Header) (first : Nat) (action : WordM Unit) (outcome : Option Draft) (before : Machine) : Prop :=
  match outcome with
  | some next => ∃ after, action before = .ok () after ∧ Drafting entries first next after ∧ Worked first before after
  | none => ∃ fault after, action before = .error fault after

variable {after before : Machine} {first token : Nat} {bytes : List UInt8} {draft : Draft} {entries : List Header}
  {entry : Header}

theorem Worked.undisturbed (hwork : Worked first before after)
    (hfst : dictionaryStart ≤ first) (hend : first ≤ dictionaryEnd)
    (hnames : before.dictionary.names ≤ dictionaryEnd) : Undisturbed first before after := by
  refine ⟨?_, hwork.memory.mono fun addr hin => ?_⟩
  · rw [hwork.machine]
  · have horder := order
    have hplace : first ≤ addr ∧ addr < returnStack := by
      rcases hin with ⟨hstart, hfin⟩ | ⟨hstart, hfin⟩
      · simp only at hstart hfin
        omega
      · omega
    refine ⟨.inr hplace.1, hplace.2, fun hbase => ?_⟩
    rw [holds_mk] at hbase
    omega

theorem Worked.reading (hwork : Worked first before after) (hfst : dictionaryStart ≤ first) (hb : before.Bounded)
    (hrd : Reading bytes before) : Reading bytes after := by
  refine hrd.frame hb (by rw [hwork.machine]) hwork.memory fun addr hin hsource => ?_
  have horder := order
  have hlow : addr < dictionaryStart := by
    rcases hsource with ⟨_, hlast⟩ | ⟨_, hlast⟩ <;> simp only at hlast <;> omega
  rcases hin with ⟨hstart, _⟩ | ⟨hstart, _⟩
  · simp only at hstart
    omega
  · omega

/-- Code that is laid down above the headers leaves the entries as they are. -/
theorem Lexicon.worked (hlex : Lexicon entries before) (hbelow : ∀ entry ∈ entries, entry.address + size ≤ first)
    (hsite : Site first draft after) (hwork : Worked first before after) : Lexicon entries after := by
  have hstart := hsite.start_le
  have hfst := hsite.first_le
  have hhere := hsite.bounded.dictionary.here_le
  have horigin := hsite.bounded.dictionary.start_le
  rw [hwork.names_eq] at hhere
  rw [hwork.dictionary] at horigin
  have hafter := hsite.here_eq
  have horder := order
  have hframe := @Represents.frame _ _ _ _ hlex after.dictionary.here _ _ horigin hhere
    (fun newest hnewest => by have := hbelow newest (List.mem_of_mem_head? hnewest); omega) hwork.memory
    (fun entry hentry addr hlow hhigh hin => ?_) fun addr hlow hhigh hin => ?_
  · rw [Lexicon, hwork.dictionary]
    exact hframe
  · have hbelow := hbelow entry hentry
    have hnames := hlex.names_le
    rcases hin with ⟨hstart, _⟩ | ⟨hstart, _⟩
    · simp only at hstart
      omega
    · omega
  · rcases hin with ⟨_, hfin⟩ | ⟨hstart, _⟩
    · simp only at hfin
      omega
    · omega

namespace Drafting

variable {entries : List Header} {first : Nat} {draft next : Draft} {before after : Machine}

theorem worked (hd : Drafting entries first draft before) (hsite : Site first next after)
    (hwork : Worked first before after) : Drafting entries first next after := by
  refine ⟨hsite, hd.lexicon.worked hd.below hsite hwork, hd.below, ?_⟩
  rw [Machine.Compiling, hwork.cellAt_of_low hsite.start_le (by decide)]
  exact hd.compiling

theorem withIp (hd : Drafting entries first draft before) (ip : Nat) :
    Drafting entries first draft { before with ip } :=
  ⟨hd.site.transfer { hd.site.bounded with } rfl rfl (.refl _ _), hd.lexicon, hd.below, hd.compiling⟩

/-- What changes lies below the dictionary, and it is not the cell that says whether a definition is open. -/
theorem frame (hd : Drafting entries first draft before) (hb : after.Bounded)
    (hctl : after.control = before.control) (hdict : after.dictionary = before.dictionary)
    (hmem : SameOutside (Region.mk Layout.base dictionaryStart).Holds before.memory after.memory) :
    Drafting entries first draft after := by
  have hstart := hd.site.start_le
  have horigin : before.dictionary.start = dictionaryStart := hd.site.bounded.dictionary.start_eq
  refine ⟨hd.site.transfer hb hdict hctl (hmem.mono fun other hin => .inl ?_), ?_,
    hd.below, ?_⟩
  · rw [holds_mk] at hin
    omega
  · refine hd.lexicon.transfer hdict hmem (fun other hin => .inl ?_)
      hd.site.bounded.dictionary.here_le
    rw [holds_mk] at hin
    omega
  · have horder := order
    rw [Machine.Compiling, hmem.cellAt fun other _ hother hin => by rw [holds_mk] at hin; omega]
    exact hd.compiling

theorem setCell (hd : Drafting entries first draft before) (value : Cell)
    (hlow : Layout.base ≤ addr) (hhigh : addr + 4 ≤ dictionaryStart) :
    Drafting entries first draft { before with memory := before.memory.setCell addr value } := by
  have hset := sameOutside_setCell before.memory addr value
  refine hd.frame (hd.site.bounded.withMemory hset.size) rfl rfl (hset.mono fun other hin => ?_)
  rw [holds_mk] at hin ⊢
  omega

theorem performs {action : WordM Unit} {result : Option Draft} (hd : Drafting entries first draft before)
    (hperforms : Performs first action draft (result.map fun next => ((), next))) :
    Draws entries first action result before := by
  have hdone := hperforms before hd.site
  cases result with
  | none => exact hdone
  | some next =>
    obtain ⟨after, hok, hsite, hwork⟩ := hdone
    exact ⟨after, hok, hd.worked hsite hwork, hwork⟩

end Drafting

/-! ### Words that are executed -/

/-- The word is executed and not compiled, and it is the primitive. -/
def Calls (entries : List Header) (token : String) (prim : Prim) (compiling : Bool) : Prop :=
  ∃ header, lookup entries token = some header ∧ Code.ofCell? header.code = some (.prim prim) ∧
    if compiling then header.isImmediate = true else header.isCompileOnly = false

namespace Calls

variable {entries : List Header} {token : String} {prim : Prim} {compiling : Bool} {action : WordM Unit}
  {before after : Machine}

variable (hcalls : Calls entries token prim compiling)

include hcalls

theorem interpretToken_eq (hb : before.Bounded)
    (hlex : Lexicon entries before) (hcpl : before.Compiling ↔ compiling = true) :
    ∃ addr cell, before.memory.readCell addr = .ok cell ∧ Code.ofCell? cell = some (.prim prim) ∧
      ∀ serve, interpretToken serve token before = serve (.execute addr) before := by
  obtain ⟨header, hlook, hcode, hruns⟩ := hcalls
  have hfind := hlex.findHeader?_eq token
  rw [hlook] at hfind
  refine ⟨header.xt, header.code, hlex.readCell_eq (mem_of_lookup hlook), hcode, fun serve => ?_⟩
  cases compiling with
  | true => exact interpretToken_of_immediate hb (hcpl.2 rfl) hfind hruns
  | false =>
    exact interpretToken_of_interpreted hb (fun hopen => Bool.false_ne_true (hcpl.1 hopen))
      hfind hruns

theorem of_ok (hb : before.Bounded) (hlex : Lexicon entries before) (hcpl : before.Compiling ↔ compiling = true)
    (hperf : prim.perform = complete action) (hok : action { before with ip := 0 } = .ok () after)
    (hip : after.ip = 0) (fuel : Nat) :
    interpretToken (serve (fuel + 2)) token before = .ok () { after with ip := before.ip } := by
  obtain ⟨addr, cell, hread, hcode, htoken⟩ := hcalls.interpretToken_eq hb hlex hcpl
  rw [htoken]
  refine serve_execute_of_ok hread hcode ?_ hip
  rw [hperf]
  exact bind_of_ok hok

theorem of_error {fault : Fault} (hb : before.Bounded)
    (hlex : Lexicon entries before) (hcpl : before.Compiling ↔ compiling = true)
    (hperf : prim.perform = complete action) (herror : action { before with ip := 0 } = .error fault after)
    (fuel : Nat) :
    interpretToken (serve (fuel + 2)) token before =
      .error (.fault fault) { after with ip := before.ip } := by
  obtain ⟨addr, cell, hread, hcode, htoken⟩ := hcalls.interpretToken_eq hb hlex hcpl
  rw [htoken]
  refine serve_execute_of_error hread hcode ?_
  rw [hperf]
  exact bind_of_error herror

end Calls

theorem Reading.withIp (hrd : Reading bytes m) (ip : Nat) : Reading bytes { m with ip } :=
  ⟨hrd.low, hrd.high, hrd.left⟩

theorem Undisturbed.withIp {limit : Nat} (hundist : Undisturbed limit { before with ip := 0 } after) :
    after.ip = 0 ∧ Undisturbed limit before { after with ip := before.ip } := by
  refine ⟨?_, ?_, hundist.memory⟩
  · rw [hundist.machine]
  · rw [hundist.machine]

/-! ### Words of a definition -/

/-- What a word does to an open definition, if it is one that can only lay code down. It was looked up before. -/
def stepFor? (base : Except Fault Nat) (token : String) : Option Header → Option (Draft → Option Draft)
  | none =>
    match base with
    | .ok radix => (Number.read? radix token).map fun read => Draft.number read.1
    | .error _ => none
  | some header =>
    if header.isImmediate then
      match Code.ofCell? header.code with
      | some (.prim (.control word)) => some word.draft
      | some (.prim (.defining .does)) => some (Draft.compile (.thread .setDoes))
      | _ => none
    else some (Draft.emit (Cell.ofNat header.xt))

def stepOf? (entries : List Header) (base : Except Fault Nat) (token : String) : Option (Draft → Option Draft) :=
  stepFor? base token (lookup entries token)

/-- The word is interpreted, and the definition is then the next draft, or the word fails. -/
def Advances (entries : List Header) (first : Nat) (token : String) (outcome : Option Draft) (before : Machine) :
    Prop :=
  match outcome with
  | some next =>
    ∃ after, (∀ fuel, interpretToken (serve (fuel + 2)) token before = .ok () after) ∧
      Drafting entries first next after ∧ Undisturbed first before after ∧
      ∀ bytes, Reading bytes before → Reading bytes after
  | none => ∀ fuel, ∃ halt after,
    interpretToken (serve (fuel + 2)) token before = .error halt after

namespace Drafting

variable {entries : List Header} {first radix : Nat} {base : Except Fault Nat} {draft : Draft} {before : Machine}
  {token : String}

section

variable (hd : Drafting entries first draft before)

include hd

theorem undisturbed {after : Machine} (hwork : Worked first before after) : Undisturbed first before after :=
  hwork.undisturbed hd.site.start_le (Nat.le_trans hd.site.first_le hd.site.here_le)
    hd.site.bounded.dictionary.names_le

theorem compiling_iff : before.Compiling ↔ true = true := ⟨fun _ => rfl, fun _ => hd.compiling⟩

theorem compiled {header : Header} (hlook : lookup entries token = some header) (himm : header.isImmediate = false) :
    Advances entries first token (draft.emit (Cell.ofNat header.xt)) before := by
  have hfind := hd.lexicon.findHeader?_eq token
  rw [hlook] at hfind
  have htoken (fuel : Nat) := @interpretToken_of_compiled (serve (fuel + 2)) _ _ _
    hd.site.bounded hd.compiling hfind himm
  have hdone := hd.performs (performs_comma (Cell.ofNat header.xt))
  cases hnext : draft.emit (Cell.ofNat header.xt) with
  | none =>
    rw [hnext] at hdone
    obtain ⟨fault, after, herror⟩ := hdone
    exact fun fuel => ⟨_, after, (htoken fuel).trans (run_of_error herror)⟩
  | some next =>
    rw [hnext] at hdone
    obtain ⟨after, hok, hafter, hwork⟩ := hdone
    exact ⟨after, fun fuel => (htoken fuel).trans (run_of_ok hok), hafter, hd.undisturbed hwork,
      fun bytes => hwork.reading hd.site.start_le hd.site.bounded⟩

theorem executed {prim : Prim} {action : WordM Unit} {result : Option Draft} (hcalls : Calls entries token prim true)
    (hperf : prim.perform = complete action)
    (hperforms : Performs first action draft (result.map fun next => ((), next))) :
    Advances entries first token result before := by
  have hdone := (hd.withIp 0).performs hperforms
  cases result with
  | none =>
    obtain ⟨fault, after, herror⟩ := hdone
    exact fun fuel => ⟨_, _, hcalls.of_error hd.site.bounded hd.lexicon hd.compiling_iff hperf herror fuel⟩
  | some next =>
    obtain ⟨done, hok, hdone, hwork⟩ := hdone
    obtain ⟨hip, hundist⟩ := ((hd.withIp 0).undisturbed hwork).withIp
    refine ⟨{ done with ip := before.ip }, hcalls.of_ok hd.site.bounded hd.lexicon hd.compiling_iff hperf hok hip,
      hdone.withIp before.ip, hundist, fun bytes hrd => ?_⟩
    exact (hwork.reading hd.site.start_le (hd.withIp 0).site.bounded (hrd.withIp 0)).withIp before.ip

end

/-- A number is compiled. -/
theorem number {value : Number} {pointCount : Cell} (hd : Drafting entries first draft before)
    (hunknown : lookup entries token = none) (hbase : before.base = .ok radix)
    (hread : Number.read? radix token = some (value, pointCount)) :
    Advances entries first token (draft.number value) before := by
  have hnoted := hd.setCell pointCount (by decide : Layout.base ≤ Layout.pointCount) (by decide)
  have hmark := Undisturbed.setCell first before pointCount (by decide : Layout.pointCount + 4 ≤ _) (.inl (by decide))
  have hfind := hd.lexicon.findHeader?_eq token
  rw [hunknown] at hfind
  have hcpl : (before.memory.cellAt state != 0) = true := bne_iff_ne.2 hd.compiling
  have hnumber : interpretNumber true token before = acceptNumber true value
      { before with memory := before.memory.setCell Layout.pointCount pointCount } := by
    refine (bind_of_ok (ask_of_ok hbase)).trans ?_
    simp only [hread]
    exact bind_of_ok (writeCell_of_low hd.site.bounded _ (by decide) (by decide))
  have htoken (fuel : Nat) := @interpretToken_of_unknown (serve (fuel + 2)) _ _
    hd.site.bounded hfind
  rw [hcpl] at htoken
  have hdone := hnoted.performs (performs_acceptNumber value)
  cases hnext : draft.number value with
  | none =>
    rw [hnext] at hdone
    obtain ⟨fault, after, herror⟩ := hdone
    exact fun fuel => ⟨_, after, (htoken fuel).trans (run_of_error (hnumber.trans herror))⟩
  | some next =>
    rw [hnext] at hdone
    obtain ⟨after, hok, hafter, hwork⟩ := hdone
    refine ⟨after, fun fuel => (htoken fuel).trans (run_of_ok (hnumber.trans hok)), hafter,
      hmark.trans (hnoted.undisturbed hwork), fun bytes hrd => ?_⟩
    exact hwork.reading hd.site.start_le hnoted.site.bounded (hrd.note hd.site.bounded pointCount)

/-- A word does to the draft what it should. -/
theorem advances {step : Draft → Option Draft} (hd : Drafting entries first draft before)
    (hbase : before.base = base) (hstep : stepOf? entries base token = some step) :
    Advances entries first token (step draft) before := by
  rw [stepOf?] at hstep
  cases hlook : lookup entries token with
  | none =>
    cases base with
    | error fault =>
      rw [hlook] at hstep
      cases hstep
    | ok radix =>
      rw [hlook, stepFor?] at hstep
      obtain ⟨⟨value, pointCount⟩, hread, rfl⟩ := Option.map_eq_some_iff.1 hstep
      exact hd.number hlook hbase hread
  | some header =>
    rw [hlook, stepFor?] at hstep
    cases himm : header.isImmediate with
    | false =>
      rw [himm, if_neg Bool.false_ne_true] at hstep
      cases hstep
      exact hd.compiled hlook himm
    | true =>
      rw [himm, if_pos rfl] at hstep
      split at hstep
      · rename_i word hcode
        cases hstep
        exact hd.executed ⟨header, hlook, hcode, himm⟩ rfl (ControlWord.performs word)
      · rename_i hcode
        cases hstep
        exact hd.executed ⟨header, hlook, hcode, himm⟩ rfl (performs_compile (.thread .setDoes))
      · cases hstep

end Drafting

/-! ### Opening and closing -/

/-- The machine holds the entries, interprets, and has no structure open. -/
structure Idle (entries : List Header) (m : Machine) : Prop where
  bounded : m.Bounded
  lexicon : Lexicon entries m
  closed : m.control.top = m.control.base
  resting : ¬ m.Compiling

theorem Idle.withIp (hidle : Idle entries m) (ip : Nat) : Idle entries { m with ip } :=
  ⟨{ hidle.bounded with }, hidle.lexicon, hidle.closed, hidle.resting⟩

theorem Idle.compiling_iff (hidle : Idle entries m) : m.Compiling ↔ false = true :=
  ⟨fun hopen => (hidle.resting hopen).elim, nofun⟩

theorem Idle.interpretToken_of_number {token : String} {radix : Nat}
    {value : Number} {pointCount : Cell} (hidle : Idle entries m) (hunknown : lookup entries token = none)
    (hbase : m.base = .ok radix) (hread : Number.read? radix token = some (value, pointCount)) (serve : Serve) :
    interpretToken serve token m = (liftM (acceptNumber false value) : RunM Unit)
      { m with memory := m.memory.setCell Layout.pointCount pointCount } := by
  have hfind := hidle.lexicon.findHeader?_eq token
  rw [hunknown] at hfind
  have hresting : (m.memory.cellAt state != 0) = false := by
    rw [bne_eq_false_iff_eq]
    exact Decidable.not_not.1 hidle.resting
  rw [interpretToken_of_unknown hidle.bounded hfind, hresting]
  refine (run_bind_of_ok (ask_of_ok hbase)).trans ?_
  simp only [hread]
  exact run_bind_of_ok (writeCell_of_low hidle.bounded _ (by decide) (by decide))

/-- There is room for a header with this name. -/
structure HeaderRoom (name : String) (dictionary : Dictionary) : Prop where
  length_le : (encode name).length ≤ maxNameLength
  meet : aligned dictionary.here + size + ((encode name).length + 1) < dictionary.names

/-- The cursors once a header with this name was laid down. -/
def headed (dictionary : Dictionary) (name : String) : Dictionary :=
  { dictionary with
    here := aligned dictionary.here + size
    names := dictionary.names - ((encode name).length + 1)
    latest := aligned dictionary.here }

/-- The entry of that header. -/
def headedEntry (entries : List Header) (dictionary : Dictionary) (name : String) (flags : Cell) (code : Code) : Header :=
  Change.newest entries (Header.token (aligned dictionary.here)) name flags code.toCell

theorem headedEntry_hidden (entries : List Header) (dictionary : Dictionary) (name : String) (code : Code) :
    (headedEntry entries dictionary name smudged code).isVisible = false := by
  change lacks smudged _ = false
  decide

section Opening

variable {entries : List Header} {m : Machine} {bytes : List UInt8} {name : String}
  {rest : List (List UInt8)}

theorem isEmpty_of_words (hwords : words bytes = encode name :: rest) : name.isEmpty = false := by
  obtain ⟨_, hnonempty, _⟩ := nextWord_of_words_cons hwords
  cases hisEmpty : name.isEmpty with
  | false => rfl
  | true =>
    rw [String.isEmpty_iff.1 hisEmpty] at hnonempty
    exact (hnonempty rfl).elim

variable {toIn : Cell}

/-- A word that parses a name creates a word called so. Only a report tells whether the name was taken. -/
theorem define_of_name (hb : m.Bounded) (hlex : Lexicon entries m)
    (hname : requireName m = .ok name (m.readTo toIn)) :
    Lexicon entries (m.readTo toIn) ∧ ∃ reports, ∀ flags code, DefiningWord.define flags code m =
      onDictionary (fun dictionary => dictionary.create name flags code.toCell) { m.readTo toIn with reports } := by
  have hstart : m.dictionary.start = dictionaryStart := hb.dictionary.start_eq
  have horder := order
  have hlex : Lexicon entries (m.readTo toIn) :=
    hlex.transfer rfl (sameOutside_setCell m.memory Layout.toIn toIn)
      (fun addr hin => .inl (by rw [holds_mk] at hin; omega)) hb.dictionary.here_le
  obtain ⟨reports, hwarn⟩ : ∃ reports, DefiningWord.warnIfTaken name (m.readTo toIn) =
      .ok () { m.readTo toIn with reports } := by
    have hfind := hlex.find?_eq name
    have hask : ask (fun m => m.dictionary.find? m.memory name) (m.readTo toIn) =
      .ok _ (m.readTo toIn) := ask_of_ok hfind
    rw [DefiningWord.warnIfTaken, bind_of_ok hask]
    split
    · exact ⟨_, rfl⟩
    · exact ⟨m.reports, rfl⟩
  exact ⟨hlex, reports, fun flags code => (bind_of_ok hname).trans (bind_of_ok hwarn)⟩

theorem define_fails (flags : Cell) (code : Code) (hb : m.Bounded)
    (hlex : Lexicon entries m) (hname : requireName m = .ok name (m.readTo toIn))
    (hempty : name.isEmpty = false) (hroom : ¬ HeaderRoom name m.dictionary) :
    ∃ fault after, DefiningWord.define flags code m = .error fault after ∧ Lexicon entries after := by
  obtain ⟨hread, reports, hdefine⟩ := define_of_name hb hlex hname
  have hnames : m.dictionary.names ≤ dictionaryEnd := hb.dictionary.names_le
  have horder := order
  have hsize : (m.memory.setCell Layout.toIn toIn).size = memorySize :=
    (size_setCell _ _ _).trans hb.size_eq
  rcases enter_cases m.dictionary (encode name) flags code.toCell
      (by omega : m.dictionary.names ≤ (m.memory.setCell Layout.toIn toIn).size) with
    ⟨fault, henter⟩ | ⟨hlen, hspace, hmeet, _⟩
  · refine ⟨fault, { m.readTo toIn with reports }, (hdefine flags code).trans ?_, hread⟩
    rw [onDictionary, create, hempty, if_neg Bool.false_ne_true, henter]
  · exact (hroom ⟨hlen, by omega⟩).elim

theorem create_eq (flags : Cell) (code : Code) (hb : m.Bounded) (hlex : Lexicon entries m)
    (hname : name.isEmpty = false) (hroom : HeaderRoom name m.dictionary) :
    ∃ memory, onDictionary (fun dictionary => dictionary.create name flags code.toCell) m =
        .ok (Header.token (aligned m.dictionary.here))
          { m with dictionary := headed m.dictionary name, memory } ∧
      Lexicon (headedEntry entries m.dictionary name flags code :: entries)
        { m with dictionary := headed m.dictionary name, memory } ∧
      SameOutside (Region.mk m.dictionary.here m.dictionary.names).Holds m.memory memory := by
  have hnames : m.dictionary.names ≤ dictionaryEnd := hb.dictionary.names_le
  have horder := Layout.order
  have hsize := hb.size_eq
  have hlen := hroom.length_le
  have hmeet := hroom.meet
  have hspace : (encode name).length + 1 ≤ m.dictionary.names := by omega
  have hbelow : aligned m.dictionary.here + size <
    m.dictionary.names - ((encode name).length + 1) := by omega
  have henter := @enter_of_room m.dictionary m.memory _ flags code.toCell (by omega) hlen hspace hbelow
  refine ⟨_, ?_, hlex.enter flags code.toCell hlen hspace hbelow,
    sameOutside_entered m.memory m.dictionary.latest (encode name) flags code.toCell
      (le_aligned m.dictionary.here) hspace hbelow⟩
  rw [onDictionary, create, hname, if_neg Bool.false_ne_true, henter]
  rfl

/-- A word that parses a name lays a header down if there is room for it. -/
theorem define_eq (flags : Cell) (code : Code) (hb : m.Bounded) (hlex : Lexicon entries m)
    (hrd : Reading bytes m) (hwords : words bytes = encode name :: rest)
    (hroom : HeaderRoom name m.dictionary) :
    ∃ after, DefiningWord.define flags code m = .ok (Header.token (aligned m.dictionary.here)) after ∧
      after.Bounded ∧ Lexicon (headedEntry entries m.dictionary name flags code :: entries) after ∧
      Undisturbed m.dictionary.here m after ∧ Reading (afterWord bytes) after ∧
      after.control = m.control ∧ after.dictionary = headed m.dictionary name ∧
      after.memory.cellAt state = m.memory.cellAt state := by
  obtain ⟨toIn, hname, hleft, _⟩ := requireName_of_reading hrd hb hwords
  obtain ⟨hlex, reports, hdefine⟩ := define_of_name hb hlex hname
  have hempty := isEmpty_of_words hwords
  have hread := hb.withMemory (size_setCell m.memory Layout.toIn toIn)
  have hset := sameOutside_setCell m.memory Layout.toIn toIn
  have hstart : m.dictionary.start = dictionaryStart := hb.dictionary.start_eq
  have hfst := hb.dictionary.start_le
  have hnames : m.dictionary.names ≤ dictionaryEnd := hb.dictionary.names_le
  have horder := order
  have hreported : Machine.Bounded { m.readTo toIn with reports } := { hread with }
  obtain ⟨memory, hcreate, hents, hent⟩ :=
    @create_eq entries { m.readTo toIn with reports } name flags code hreported hlex hempty hroom
  change SameOutside (Region.mk m.dictionary.here m.dictionary.names).Holds _ _ at hent
  refine ⟨_, (hdefine flags code).trans hcreate, Keeps.of_ok hreported hcreate, hents, ?_, ?_, rfl, rfl, ?_⟩
  · refine ⟨rfl, (hset.mono fun addr hin => ?_).trans (hent.mono fun addr hin => ?_)⟩
    · rw [holds_mk] at hin
      refine ⟨.inl (by omega), by omega, fun hbase => ?_⟩
      rw [holds_mk] at hbase
      omega
    · rw [Region.holds_mk] at hin
      refine ⟨.inr (by omega), by omega, fun hbase => ?_⟩
      rw [Region.holds_mk] at hbase
      omega
  · refine hleft.frame hread rfl hent fun addr hin hsource => ?_
    rw [Region.holds_mk] at hin
    rcases hsource with ⟨_, hlast⟩ | ⟨_, hlast⟩ <;> simp only at hlast <;> omega
  · have hstate : state + 4 ≤ Layout.toIn := by decide
    rw [hent.cellAt fun other _ hother hin => ?_]
    · exact cellAt_setCell_of_apart _ _ (.inl hstate)
    · rw [Region.holds_mk] at hin
      omega

/-- The definition that was opened, before a word was compiled into it. -/
def openedDraft (dictionary : Dictionary) (name : String) : Draft where
  cells := fun _ => 0
  here := (headed dictionary name).here
  names := (headed dictionary name).names
  markers := [⟨.colon, Header.token (aligned dictionary.here)⟩]

theorem Site.fresh {first : Nat} {draft : Draft} (hsite : Site first draft m) (cells : Nat → Cell)
    (hhere : draft.here = first) : Site first { draft with cells } m := by
  refine ⟨hsite.bounded, hsite.here_eq, hsite.names_eq, hsite.start_le, hsite.first_le, hsite.isAligned, ?_, hsite.top_eq,
    hsite.held, hsite.addresses, hsite.placeholders⟩
  rintro addr ⟨hlow, hhigh, _⟩
  change addr + 4 ≤ draft.here at hhigh
  omega

variable (hidle : Idle entries m)

include hidle

theorem Idle.needIdle_eq : DefiningWord.needIdle m = .ok () m := by
  refine (bind_of_ok (show markerDepth m = .ok (m.control.depth / 2) m from rfl)).trans ?_
  rw [if_neg]
  · rfl
  · have hclosed := hidle.closed
    rw [Stack.depth]
    omega

theorem Idle.isHeaded {entered : Machine} (hb : entered.Bounded) (hctl : entered.control = m.control)
    (hdict : entered.dictionary = headed m.dictionary name) :
    Headed (Header.token (aligned m.dictionary.here)) entered := by
  have hstart := hidle.bounded.dictionary.start_le
  rw [hidle.bounded.dictionary.start_eq] at hstart
  change dictionaryStart ≤ _ at hstart
  have hgrow := le_aligned m.dictionary.here
  have halign := aligned_mod m.dictionary.here
  refine ⟨hb, by rw [hctl]; exact hidle.closed, by rw [hdict]; rfl, ?_, ?_, by rw [hdict]; rfl⟩
  · rw [Header.token]
    omega
  · rw [Header.token]
    omega

theorem Idle.open_fails (hrd : Reading bytes m)
    (hwords : words bytes = encode name :: rest) (hroom : ¬ HeaderRoom name m.dictionary) :
    ∃ fault after, DefiningWord.openNamed m = .error fault after := by
  obtain ⟨toIn, hname, _⟩ := requireName_of_reading hrd hidle.bounded hwords
  obtain ⟨fault, after, hdefine, -⟩ :=
    define_fails smudged .colon hidle.bounded hidle.lexicon hname (isEmpty_of_words hwords) hroom
  exact ⟨fault, after, (bind_of_ok hidle.needIdle_eq).trans (bind_of_error hdefine)⟩

/-- `:` opens a definition. -/
theorem Idle.opens (hrd : Reading bytes m)
    (hwords : words bytes = encode name :: rest) (hroom : HeaderRoom name m.dictionary) :
    ∃ after, DefiningWord.openNamed m = .ok () after ∧
      Drafting (headedEntry entries m.dictionary name smudged .colon :: entries)
        (headed m.dictionary name).here (openedDraft m.dictionary name) after ∧
      Undisturbed m.dictionary.here m after ∧ Reading (afterWord bytes) after := by
  obtain ⟨entered, hdefine, hb, hlex, hundist, hleft, hctl, hdict, hstate⟩ :=
    define_eq smudged .colon hidle.bounded hidle.lexicon hrd hwords hroom
  have hgrow := le_aligned m.dictionary.here
  have hheaded := hidle.isHeaded hb hctl hdict
  have hsite := hheaded.site
  rw [hdict] at hsite
  have hend := hsite.here_lt
  change aligned m.dictionary.here + 20 < 2 ^ 30 at hend
  have haddr : Header.token (aligned m.dictionary.here) < 2 ^ 31 := by
    rw [Header.token]
    omega
  obtain ⟨marked, hmark, hmarked, hwork⟩ := (@performs_pushMarker _ _
    ⟨.colon, Header.token (aligned m.dictionary.here)⟩ haddr fun hfwd => by cases hfwd) entered hsite
  have hbelow : ∀ entry ∈ headedEntry entries m.dictionary name smudged .colon :: entries,
      entry.address + size ≤ body (Header.token (aligned m.dictionary.here)) := by
    intro entry hentry
    have hins := (hlex.below entry hentry).2
    rw [hdict] at hins
    exact hins
  have hmarkedLexicon := hlex.worked hbelow hmarked hwork
  have hcompile := writeCell_of_low hmarked.bounded (Cell.ofBool true) (by decide : state + 4 ≤ _) (by decide)
  have hset := sameOutside_setCell marked.memory state (Cell.ofBool true)
  have hfinal := hmarked.bounded.withMemory hset.size
  have horder := order
  refine ⟨_, (bind_of_ok hidle.needIdle_eq).trans ((bind_of_ok hdefine).trans ((bind_of_ok hmark).trans hcompile)),
    ⟨?_, ?_, hbelow, ?_⟩, ?_, ?_⟩
  · refine (hmarked.transfer hfinal rfl rfl (hset.mono fun addr hin => .inl ?_)).fresh _ rfl
    have hfst := hmarked.start_le
    rw [holds_mk] at hin
    omega
  · refine hmarkedLexicon.transfer rfl hset (fun addr hin => .inl ?_) hmarked.bounded.dictionary.here_le
    rw [hmarked.bounded.dictionary.start_eq]
    rw [holds_mk] at hin
    omega
  · rw [Machine.Compiling, cellAt_setCell _ _ _ (by rw [hmarked.bounded.size_eq]; decide)]
    decide
  · have hlater : m.dictionary.here ≤ body (Header.token (aligned m.dictionary.here)) := by
      rw [body, Header.token]
      omega
    refine hundist.trans (((hwork.undisturbed hmarked.start_le ?_ ?_).mono hlater).trans
      (Undisturbed.setCell _ marked (Cell.ofBool true) (by decide) (.inr (by decide))))
    · exact Nat.le_trans hmarked.first_le hmarked.here_le
    · exact hb.dictionary.names_le
  · refine (hwork.reading hmarked.start_le hb hleft).frame hmarked.bounded rfl hset fun addr hin hsource => ?_
    rw [holds_mk] at hin
    rcases hsource with ⟨hfst, _⟩ | ⟨hfst, _⟩ <;> simp only at hfst <;> omega

end Opening

/-- An entry that is no longer hidden while its definition is open. -/
def Header.revealed (entry : Header) : Header := { entry with flags := entry.flags &&& ~~~smudged }

/-- The newest entry is shown, and compiling ends. -/
theorem Drafting.reveals
    (hd : Drafting (entry :: entries) first draft m) (hmarks : draft.markers = []) :
    ∃ memory, (do onMemory (clearFlag entry.address smudged); setCompiling false : WordM Unit) m =
        .ok () { m with memory } ∧ Idle (entry.revealed :: entries) { m with memory } ∧
      SameOutside
        (fun addr => (Region.mk state Layout.base).Holds addr ∨
          (Region.mk entry.address (entry.address + Header.size)).Holds addr) m.memory memory := by
  have hins := (Represents.inside hd.lexicon (@List.mem_cons_self _ entry entries)).2
  obtain ⟨_, _, _, hheld⟩ := hd.lexicon.held entry List.mem_cons_self
  have hrange : entry.address + Header.size ≤ memorySize := hd.site.bounded.size_eq ▸ hins.2.2
  have htop := hd.site.top_eq
  rw [hmarks] at htop
  have hreveal := reveal_eq hd.site.bounded hrange hheld.isAligned
  have hflags := sameOutside_setCell m.memory (flagsField entry.address)
    (m.memory.cellAt (flagsField entry.address) &&& ~~~smudged)
  have hrevealed := hd.lexicon.reflag List.mem_cons_self (· &&& ~~~smudged)
  rw [Represents.revise_newest hd.lexicon] at hrevealed
  change Lexicon (entry.revealed :: entries) { m with
    memory := m.memory.setCell (flagsField entry.address)
      (m.memory.cellAt (flagsField entry.address) &&& ~~~smudged) } at hrevealed
  generalize m.memory.setCell (flagsField entry.address)
    (m.memory.cellAt (flagsField entry.address) &&& ~~~smudged) = flagged
    at hreveal hflags hrevealed
  have hstate := sameOutside_setCell flagged state 0
  have hb := hd.site.bounded.withMemory (hstate.size.trans hflags.size)
  refine ⟨flagged.setCell state 0, hreveal, ⟨hb, ?_, htop, ?_⟩, ?_⟩
  · refine hrevealed.transfer rfl hstate (fun addr hin => .inl ?_) hb.dictionary.here_le
    have hstart : m.dictionary.start = dictionaryStart := hb.dictionary.start_eq
    have horder := order
    rw [holds_mk] at hin
    change addr < m.dictionary.start
    omega
  · rw [Machine.Compiling, cellAt_setCell]
    · exact not_not_intro rfl
    · rw [hflags.size, hd.site.bounded.size_eq]
      decide
  · have hstep : state + 4 = Layout.base := rfl
    refine Memory.SameOutside.trans (hflags.mono fun addr hin => .inr ?_)
      (hstate.mono fun addr hin => .inl ?_)
    · rw [holds_mk, flagsField] at hin
      rw [holds_mk, size]
      omega
    · rw [holds_mk] at hin ⊢
      omega

theorem Drafting.close_pops
    (hd : Drafting entries first draft m) (hmarks : draft.markers = [⟨.colon, token⟩]) :
    ∃ popped, Drafting entries first { draft with markers := [] } popped ∧ Worked first m popped ∧
      DefiningWord.close m = (do
        compile (.thread .exit)
        onMemory (clearFlag (ofToken token) smudged)
        setCompiling false : WordM Unit) popped := by
  have htop := hd.site.top_eq
  rw [hmarks, List.length_singleton] at htop
  have hdepth : markerDepth m = .ok 1 m := by
    rw [show (1 : Nat) = m.control.depth / 2 by rw [Stack.depth]; omega]
    rfl
  obtain ⟨popped, hpop, hsite, hwork⟩ := performs_popMarker hmarks m hd.site
  refine ⟨popped, hd.worked hsite hwork, hwork, (bind_of_ok hdepth).trans ?_⟩
  rw [if_neg (not_not_intro rfl)]
  refine (bind_of_ok hpop).trans ?_
  rw [if_neg (not_not_intro rfl)]

theorem Drafting.close_fails
    (hd : Drafting entries first draft m) (hmarks : draft.markers = [⟨.colon, token⟩])
    (hroom : draft.names < draft.here + 4) : ∃ fault after, DefiningWord.close m = .error fault after := by
  obtain ⟨popped, hpop, _, hclose⟩ := hd.close_pops hmarks
  have hdone := hpop.performs (performs_compile (.thread .exit))
  rw [Draft.compile, Draft.emit, if_pos (by exact hroom)] at hdone
  obtain ⟨fault, after, herror⟩ := hdone
  exact ⟨fault, after, hclose.trans (bind_of_error herror)⟩

/-- What `;` leaves: the code of the draft with `EXIT` behind it, under an entry that can be found. -/
theorem Drafting.closes
    (hd : Drafting (entry :: entries) first draft m) (hfst : body entry.xt = first)
    (hmarks : draft.markers = [⟨.colon, entry.xt⟩]) (hroom : draft.here + 4 ≤ draft.names) :
    ∃ after, DefiningWord.close m = .ok () after ∧ Idle (entry.revealed :: entries) after ∧
      Undisturbed entry.address m after ∧ (∀ bytes, Reading bytes m → Reading bytes after) ∧
      after.dictionary = { m.dictionary with here := draft.here + 4 } ∧
      (∀ addr, draft.InRange first addr → after.memory.cellAt addr = draft.cells addr) ∧
      after.memory.cellAt draft.here = Cell.ofNat (Prim.thread .exit).token := by
  obtain ⟨popped, hpop, hwork, hclose⟩ := hd.close_pops hmarks
  have hemit : Draft.compile (.thread .exit) { draft with markers := [] } = some
      { draft with cells := Draft.put draft.cells draft.here (Cell.ofNat (Prim.thread .exit).token),
                   here := draft.here + 4, markers := [] } := by
    rw [Draft.compile, Draft.emit, if_neg (by change ¬ draft.names < draft.here + 4; omega)]
  have hdone := hpop.performs (performs_compile (.thread .exit))
  rw [hemit] at hdone
  obtain ⟨ended, hexit, hended, hworked'⟩ := hdone
  obtain ⟨memory, hreveal, hidle, hmem⟩ := hended.reveals rfl
  have horigin := (hended.lexicon.below entry List.mem_cons_self).1
  rw [hended.site.bounded.dictionary.start_eq] at horigin
  have hbody : first = entry.address + 20 := by rw [← hfst]; rfl
  have hsize : size = 20 := rfl
  have hfirstLe := hd.site.first_le
  have hhereLe := hd.site.here_le
  have horder := order
  have hcells : ∀ addr, first ≤ addr →
      cellAt memory addr = ended.memory.cellAt addr := by
    intro addr haddr
    refine hmem.cellAt fun other hother _ hin => ?_
    simp only [Region.holds_mk] at hin
    omega
  refine ⟨{ ended with memory }, ?_, hidle, ?_, fun bytes hrd => ?_, ?_, fun addr hin => ?_, ?_⟩
  · refine hclose.trans ((bind_of_ok hexit).trans ?_)
    rw [show ofToken entry.xt = entry.address from Nat.add_sub_cancel _ _]
    exact hreveal
  · refine ((hd.undisturbed hwork).trans (hpop.undisturbed hworked')).mono (by omega) |>.trans
      ⟨rfl, hmem.mono fun addr hin => ?_⟩
    simp only [Region.holds_mk] at hin
    refine ⟨by omega, by omega, fun hbase => ?_⟩
    rw [Region.holds_mk] at hbase
    omega
  · have hread := hworked'.reading hpop.site.start_le hpop.site.bounded
      (hwork.reading hpop.site.start_le hd.site.bounded hrd)
    refine hread.frame hended.site.bounded rfl hmem fun addr hin hsource => ?_
    simp only [Region.holds_mk] at hin
    rcases hsource with ⟨hstart, hlast⟩ | ⟨hstart, hlast⟩ <;> simp only at hstart hlast <;> omega
  · have hhere := hended.site.here_eq
    rw [hworked'.dictionary, hwork.dictionary]
    exact congrArg (fun here => { m.dictionary with here }) hhere
  · obtain ⟨hfrom, hto, halign⟩ := hin
    rw [hcells addr hfrom, hended.site.cells addr ⟨hfrom, by change addr + 4 ≤ draft.here + 4; omega, halign⟩]
    exact Draft.put_of_ne _ _ (by omega)
  · rw [hcells draft.here hfirstLe,
      hended.site.cells draft.here ⟨hfirstLe, Nat.le_refl _, hd.site.isAligned⟩]
    exact Draft.put_self _ _ _

/-! ### What is on the stacks does not matter -/

namespace Follows

variable {entries : List Header} {bytes : List UInt8} {thread : Thread} {base m : Machine}

theorem exists_refl (hb : m.Bounded) : ∃ items returns, Follows m ⟨m.ip, items, returns⟩ m := by
  obtain ⟨items, hitems⟩ := hb.data.exists_carries m.memory
  obtain ⟨returns, hret⟩ := hb.returns.exists_carries m.memory
  exact ⟨items, returns, hb, rfl, .refl _ _, hitems, hret⟩

theorem cellAt_eq (hfol : Follows base thread m)
    (haddr : addr + 4 ≤ returnStack) : m.memory.cellAt addr = base.memory.cellAt addr := by
  refine hfol.memory.cellAt fun other _ hother hin => ?_
  have habove := above other hin
  omega

variable (hfol : Follows base thread m)

include hfol

theorem lexicon (hb : base.Bounded) (hlex : Lexicon entries base) : Lexicon entries m := by
  have hend : dictionaryEnd ≤ returnStack := by decide
  refine hlex.transfer (by rw [hfol.machine_eq]) hfol.memory (fun addr hin => .inr ?_)
    hb.dictionary.here_le
  exact Nat.le_trans hend (above addr hin)

theorem idle (hidle : Idle entries base) : Idle entries m := by
  refine ⟨hfol.bounded, hfol.lexicon hidle.bounded hidle.lexicon, ?_, ?_⟩
  · rw [hfol.machine_eq]
    exact hidle.closed
  · rw [Machine.Compiling, hfol.cellAt_eq (by decide)]
    exact hidle.resting

theorem reading (hb : base.Bounded) (hrd : Reading bytes base) : Reading bytes m := by
  have horder := order
  refine hrd.frame hb (by rw [hfol.machine_eq]) hfol.memory fun addr hin hsource => ?_
  have habove := above addr hin
  rcases hsource with ⟨_, hlast⟩ | ⟨_, hlast⟩ <;> simp only at hlast <;> omega

theorem base_eq : m.base = base.base := by
  have horder := order
  rw [Machine.base, Machine.base, hfol.memory.readCell fun other _ hlast hin => ?_]
  have habove := above other hin
  omega

end Follows

end ThreadedForth
