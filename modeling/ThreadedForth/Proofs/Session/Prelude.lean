
import ThreadedForth.Proofs.Session.Start

/-!
# The prelude

The prelude defines its words one line at a time. What a line that defines a word adds to a dictionary can be
computed, and the machine comes to just that.
-/

namespace ThreadedForth

open WordM Dictionary Layout Utf8 Header InputWord Interpreter Session Text

variable {entries : List Header} {token name : String} {held next : List Header × Dictionary} {m : Machine}
  {value : Cell}

/-! ### Text -/

namespace Text

/-- The text that a word of ASCII writes. -/
def ascii (word : List UInt8) : String := String.ofList (word.map fun byte => Char.ofNat byte.toNat)

theorem char_table : ∀ n < 256, (Char.ofNat n).toNat = n ∧
    (n < 128 → String.utf8EncodeChar (Char.ofNat n) = [UInt8.ofNat n]) := by decide +kernel

theorem encode_ascii {word : List UInt8} (hascii : ∀ byte ∈ word, byte < 128) : encode (ascii word) = word := by
  have hchars (n : Nat) (hn : n < 128) := (char_table n (by omega)).2 hn
  rw [encode, ascii, String.toList_ofList, List.flatMap_map]
  induction word with
  | nil => rfl
  | cons byte word ih =>
    have hbyte : byte.toNat < 128 := hascii byte List.mem_cons_self
    rw [List.flatMap_cons, hchars _ hbyte, UInt8.ofNat_toNat, ih fun other hother => hascii other (List.mem_cons_of_mem _ hother)]
    rfl

/-- The bytes of each line of a text of ASCII. -/
def lineBytes (text : String) : List (List UInt8) :=
  (Lines.cut 10 text.toByteArray.data.toList).map fun line =>
    if line.2 ∧ line.1.getLast? = some 13 then line.1.dropLast else line.1

/-- The lines of a text of ASCII, by way of its bytes. -/
theorem map_encode_ofText {text : String} (hascii : ∀ byte ∈ text.toByteArray.data.toList, byte < 128) :
    (Lines.ofText text).map encode = lineBytes text := by
  have hvalid (n : Nat) (hn : n < 256) := (char_table n hn).1
  have hchar (byte : UInt8) : (Char.ofNat byte.toNat).toNat = byte.toNat := hvalid _ byte.toNat_lt
  have hinjective {byte other : UInt8} (hsame : Char.ofNat byte.toNat = Char.ofNat other.toNat) : byte = other := by
    rw [← UInt8.toNat_inj, ← hchar byte, ← hchar other, hsame]
  have htext : text = ascii text.toByteArray.data.toList := by
    refine encode_injective ?_
    rw [encode_ascii hascii, encode_eq]
  have hcut := @cut_map _ _ _ _ (fun byte : UInt8 => Char.ofNat byte.toNat) 10 text.toByteArray.data.toList
    fun byte _ => by rw [Bool.eq_iff_iff, beq_iff_eq, beq_iff_eq]; exact ⟨hinjective, fun hsame => by rw [hsame]⟩
  have hlist : text.toList = text.toByteArray.data.toList.map fun byte => Char.ofNat byte.toNat := by
    have hlist := congrArg String.toList htext
    rwa [ascii, String.toList_ofList] at hlist
  rw [Lines.ofText, hlist, show '\n' = Char.ofNat (10 : UInt8).toNat from rfl, hcut, List.map_map, List.map_map, lineBytes]
  refine List.map_congr_left fun piece hpiece => ?_
  have hline : ∀ byte ∈ piece.1, byte < 128 := fun byte hbyte => hascii byte (mem_of_mem_cut hpiece byte hbyte)
  have hreturn : (piece.1.map fun byte => Char.ofNat byte.toNat).getLast? = some '\r' ↔ piece.1.getLast? = some 13 := by
    rw [List.getLast?_map, Option.map_eq_some_iff]
    constructor
    · rintro ⟨byte, hlast, hbyte⟩
      rwa [← @hinjective byte 13 hbyte]
    · exact fun hlast => ⟨13, hlast, rfl⟩
  simp only [Function.comp_apply, hreturn]
  split
  · rw [← List.map_dropLast]
    exact encode_ascii fun byte hbyte => hline byte ((List.dropLast_sublist _).subset hbyte)
  · exact encode_ascii hline

/-- What follows a comment. -/
def afterComment (bytes : List UInt8) : List UInt8 :=
  bytes.drop ((bytes.takeWhile (· != closingParen)).length + 1)

/-- What is left once a comment was passed, if there is one. -/
def passComment (bytes : List UInt8) : List UInt8 :=
  if nextWord bytes = [40] then afterComment (afterWord bytes) else bytes

/-- The name and the words of a definition that stands on a line. -/
def definition? (line : List UInt8) : Option (List UInt8 × List (List UInt8)) :=
  let body := words (passComment (afterWord (afterWord line)))
  match words line with
  | [58] :: name :: _ => if body.getLast? = some [59] then some (name, body.dropLast) else none
  | _ => none

theorem of_definition? {line name : List UInt8} {body : List (List UInt8)}
    (hdefn : definition? line = some (name, body)) :
    (∃ rest, words line = [58] :: name :: rest) ∧ words (passComment (afterWord (afterWord line))) = body ++ [[59]] := by
  simp only [definition?] at hdefn
  split at hdefn
  case h_2 => cases hdefn
  case h_1 found rest hwords =>
  split at hdefn
  case isFalse => cases hdefn
  case isTrue hlast =>
  cases hdefn
  refine ⟨⟨rest, hwords⟩, ?_⟩
  obtain ⟨_, hparts⟩ := List.getLast?_eq_some_iff.1 hlast
  rw [hparts, List.dropLast_concat]

end Text

/-! ### Looking up by bytes -/

/-- The entry that a name stands for, given by its bytes in lower case. -/
def lookupBytes (entries : List Header) (name : List UInt8) : Option Header :=
  entries.find? fun entry => entry.isVisible && entry.name.toByteArray.data.toList.map foldCase == name

theorem lookupBytes_eq (entries : List Header) (name : String) :
    lookupBytes entries ((encode name).map foldCase) = lookup entries name := by
  rw [lookupBytes, lookup]
  congr 1
  funext entry
  rw [← encode_eq, Bool.eq_iff_iff, Bool.and_eq_true, Bool.and_eq_true, sameName_iff, beq_iff_eq]

/-- The word calls the primitive. -/
def calls? (entries : List Header) (word : List UInt8) (prim : Prim) (compiling : Bool) : Bool :=
  match lookupBytes entries (word.map foldCase) with
  | none => false
  | some header => Code.ofCell? header.code == some (.prim prim) &&
      if compiling then header.isImmediate else !header.isCompileOnly

theorem calls_of_calls? {prim : Prim} {compiling : Bool}
    (hcalls : calls? entries (encode token) prim compiling = true) : Calls entries token prim compiling := by
  rw [calls?, lookupBytes_eq] at hcalls
  cases hlook : lookup entries token with
  | none =>
    rw [hlook] at hcalls
    cases hcalls
  | some header =>
    simp only [hlook, Bool.and_eq_true, beq_iff_eq] at hcalls
    refine ⟨header, hlook, hcalls.1, ?_⟩
    cases compiling with
    | true => exact hcalls.2
    | false => simpa using hcalls.2

/-! ### Lines that define words -/

/-- What a definition adds to the entries and the cursors. -/
def defineWord? (held : List Header × Dictionary) (name : List UInt8) (words : List (List UInt8)) :
    Option (List Header × Dictionary) := do
  let steps ← words.mapM fun word => stepFor? (.ok 10) (ascii word) (lookupBytes held.1 (word.map foldCase))
  let draft ← Draft.run steps (openedDraft held.2 (ascii name))
  if name.length ≤ maxNameLength ∧ aligned held.2.here + size + (name.length + 1) < held.2.names ∧
      draft.markers = [⟨.colon, Header.token (aligned held.2.here)⟩] ∧ draft.here + 4 ≤ draft.names then
    some ((headedEntry held.1 held.2 (ascii name) smudged .colon).revealed :: held.1,
      { headed held.2 (ascii name) with here := draft.here + 4, names := draft.names })
  else none

/-- What a line adds to the entries and the cursors. -/
def defineLine? (held : List Header × Dictionary) (line : List UInt8) : Option (List Header × Dictionary) :=
  if Text.words line = [] then some held
  else if calls? held.1 [58] (.defining .colon) false && calls? held.1 [59] (.defining .semicolon) true &&
      calls? held.1 [40] (.input .comment) true then
    (definition? line).bind fun definition =>
      if (definition.1 :: definition.2).all (·.all (· < 128)) then defineWord? held definition.1 definition.2 else none
  else none

/-- A comment is passed. -/
theorem Drafting.finishes_comment {entries : List Header} {first : Nat} {draft : Draft} {lines : List String}
    {bytes : List UInt8} {before : Machine} {post : EStateM.Result Halt Machine Unit → Prop}
    (hd : Drafting entries first draft before) (hcalls : Calls entries "(" (.input .comment) true)
    (hexit : before.exiting = false) (hrd : Reading bytes before) (hword : nextWord bytes = encode "(")
    (hrest : ∀ after, ReadOn before after → Reading (afterComment (afterWord bytes)) after →
      Finishes lines after post) : Finishes lines before post := by
  have hwords : Text.words bytes = encode "(" :: Text.words (afterWord bytes) := by
    rw [words_eq, hword, if_neg (by decide)]
  obtain ⟨toIn, hnext, hleft, _⟩ := nextToken?_of_reading hrd hd.site.bounded hwords
  have hread := (ReadOn.readTo before toIn).drafting hd
  obtain ⟨further, text, hparse, hpassed⟩ :=
    parse_of_reading closingParen (hleft.withIp 0) (hread.withIp 0).site.bounded
  have hok : (discard (parse closingParen) : WordM Unit) { before.readTo toIn with ip := 0 } =
      .ok () (Machine.readTo { before.readTo toIn with ip := 0 } further) := discard_of_ok hparse
  have hmoved := ReadOn.readTo { before.readTo toIn with ip := 0 } further
  generalize Machine.readTo { before.readTo toIn with ip := 0 } further = passed at hok hpassed hmoved
  have hip : passed.ip = 0 := by rw [hmoved.machine]
  have hafter : ReadOn before { passed with ip := (before.readTo toIn).ip } := by
    refine ⟨?_, (ReadOn.readTo before toIn).memory.trans hmoved.memory⟩
    rw [hmoved.machine]
  have hexiting : passed.exiting = false := by
    rw [hmoved.machine]
    exact hexit
  have hperf : Prim.perform (.input .comment) = complete (discard (parse closingParen)) := rfl
  exact .next hnext (hcalls.of_ok hread.site.bounded hread.lexicon hread.compiling_iff hperf hok hip) hexiting
    (hrest _ hafter (hpassed.withIp _))

theorem steps_of_mapM {words : List (List UInt8)} {steps : List (Draft → Option Draft)}
    (hascii : ∀ word ∈ words, ∀ byte ∈ word, byte < 128)
    (hsteps : (words.mapM fun word => stepFor? (.ok 10) (ascii word) (lookupBytes entries (word.map foldCase))) = some steps) :
    Steps entries (.ok 10) (words.map ascii) steps := by
  induction words generalizing steps with
  | nil =>
    cases hsteps
    exact .nil
  | cons word words ih =>
    rw [List.mapM_cons] at hsteps
    obtain ⟨step, hstep, hsteps⟩ := Option.bind_eq_some_iff.1 hsteps
    obtain ⟨rest, hrest, hsteps⟩ := Option.bind_eq_some_iff.1 hsteps
    cases hsteps
    refine .cons ?_ (ih (fun other hother => hascii other (List.mem_cons_of_mem _ hother)) hrest)
    have hword := encode_ascii (hascii word List.mem_cons_self)
    rw [stepOf?, ← lookupBytes_eq, hword]
    exact hstep

theorem Completed.holds {draft : Draft} {before after : Machine}
    (hcomp : Completed held.1 name draft before after) (hholds : Holds held before) :
    Holds ((headedEntry held.1 held.2 name smudged .colon).revealed :: held.1,
      { headed held.2 name with here := draft.here + 4, names := draft.names }) after := by
  have hidle := hcomp.idle
  have hlatest := hidle.lexicon.latest_eq
  have hstart := hidle.bounded.dictionary.start_eq
  have horigin := hholds.fresh.idle.bounded.dictionary.start_eq
  have hhere := hcomp.here_eq
  have hnames := hcomp.names_eq
  rw [hholds.dictionary_eq] at hidle hlatest horigin
  refine ⟨⟨hidle, ?_, ?_, ?_, ?_⟩, ?_⟩
  · rw [hcomp.undisturbed.machine]
    exact hholds.fresh.empty
  · rw [hcomp.undisturbed.machine]
    exact hholds.fresh.returned
  · exact hcomp.undisturbed.base_eq.trans hholds.fresh.base_eq
  · exact hcomp.undisturbed.exiting_eq.trans hholds.fresh.exiting_eq
  · have hfields (dictionary : Dictionary) : dictionary =
        ⟨dictionary.start, dictionary.here, dictionary.names, dictionary.latest⟩ := rfl
    rw [hfields after.dictionary, hstart, ← horigin, hhere, hnames, hlatest]
    rfl

theorem Drafting.finishes_body {entries : List Header} {first : Nat} {draft : Draft} {bytes : List UInt8}
    {before : Machine} {post : EStateM.Result Halt Machine Unit → Prop} (hd : Drafting entries first draft before)
    (hcalls : Calls entries "(" (.input .comment) true) (hexit : before.exiting = false) (hrd : Reading bytes before)
    (hrest : ∀ after, ReadOn before after → Reading (passComment bytes) after → Finishes [] after post) :
    Finishes [] before post := by
  rw [passComment] at hrest
  split at hrest
  case isTrue hcomment => exact hd.finishes_comment hcalls hexit hrd (hcomment.trans (by decide)) hrest
  case isFalse => exact hrest before (.refl before) hrd

theorem Holds.definition {held next : List Header × Dictionary} {bytes name : List UInt8} {words : List (List UInt8)}
    {m : Machine} (hholds : Holds held m) (hrd : Reading bytes m)
    (hcolon : Calls held.1 ":" (.defining .colon) false) (hsemi : Calls held.1 ";" (.defining .semicolon) true)
    (hcomment : Calls held.1 "(" (.input .comment) true) (hdefn : definition? bytes = some (name, words))
    (hascii : ∀ word ∈ name :: words, ∀ byte ∈ word, byte < 128) (hnext : defineWord? held name words = some next) :
    Finishes [] m fun ended => ∃ after, ended = .ok () after ∧ Holds next after := by
  have hname := encode_ascii (hascii name List.mem_cons_self)
  obtain ⟨steps, hsteps, hnext⟩ := Option.bind_eq_some_iff.1 hnext
  obtain ⟨draft, hdraft, hnext⟩ := Option.bind_eq_some_iff.1 hnext
  split at hnext
  case isFalse => cases hnext
  case isTrue hcheck =>
  obtain ⟨hlen, hmeet, hmarks, hroom⟩ := hcheck
  cases hnext
  rw [← hholds.dictionary_eq] at hdraft hmarks hmeet
  have hsteps := steps_of_mapM (fun word hword => hascii word (List.mem_cons_of_mem _ hword)) hsteps
  have hhdr : HeaderRoom (ascii name) m.dictionary := ⟨by rwa [hname], by rwa [hname]⟩
  have hhidden := headedEntry_hidden held.1 m.dictionary (ascii name) .colon
  obtain ⟨⟨rest, hwords⟩, hbody⟩ := of_definition? hdefn
  rw [← hname] at hwords
  refine hholds.fresh.idle.finishes_open hholds.fresh.exiting_eq hrd hwords hcolon
    (fun hfull => (hfull hhdr).elim) fun _ opened hd hopened hleft => ?_
  refine hd.finishes_body (hcomment.cons_of_hidden hhidden) (hopened.exiting_eq.trans hholds.fresh.exiting_eq) hleft
    fun begun hreadOn hread => ?_
  have htokens : Text.words (passComment (afterWord (afterWord bytes))) ++ [].flatMap ofLine =
      (words.map ascii).map encode ++ [encode ";"] := by
    have hsame : (words.map ascii).map encode = words := by
      rw [List.map_map]
      exact (List.map_congr_left fun word hword =>
        encode_ascii (hascii word (List.mem_cons_of_mem _ hword))).trans (List.map_id words)
    rw [hbody, hsame, List.flatMap_nil, List.append_nil]
    exact congrArg (words ++ [·]) (by decide)
  obtain ⟨bound, hbound⟩ := (hreadOn.drafting hd).finishes_definition hhdr
    (hopened.trans (hreadOn.undisturbed _)) hholds.fresh.base_eq hholds.fresh.exiting_eq hread
    (fun _ hnone => by cases hnone) htokens hsemi hsteps fun other hother => by
      cases hdraft.symm.trans hother
      exact hmarks
  refine ⟨bound, fun fuel hfuel more hmore => ?_⟩
  have hends := hbound fuel hfuel more hmore
  generalize interpretRest fuel more [] begun = ended at hends
  cases ended with
  | error halt after => exact (hends ⟨hhdr, draft, hdraft, hroom⟩).elim
  | ok answer after =>
    obtain ⟨_, other, hother, hcomp⟩ := hends
    cases hdraft.symm.trans hother
    exact ⟨after, rfl, hcomp.holds hholds⟩

/-- A line adds to the dictionary what was computed. -/
theorem Holds.line {line : String}
    (hholds : Holds held m) (hfits : (encode line).length ≤ inputBufferSize)
    (hline : defineLine? held (encode line) = some next) :
    Settles [line] m fun ended => ∃ after, ended = .ok () after ∧ Holds next after := by
  have hnew := ReadOn.withLine m hfits
  have hrd := reading_withLine hholds.fresh.idle.bounded hfits
  have hstart := hholds.readOn hnew
  refine Settles.of_finishes hholds.fresh.idle.bounded hfits ?_
  generalize withLine m (encode line) = before at hnew hrd hstart ⊢
  generalize encode line = bytes at hline hrd
  rw [defineLine?] at hline
  by_cases hblank : Text.words bytes = []
  · rw [if_pos hblank] at hline
    cases hline
    refine Finishes.blank hstart.fresh.idle.bounded hrd (fun _ hnone => by cases hnone) ?_
      fun after hreadOn => ⟨after, rfl, hstart.readOn hreadOn⟩
    rw [hblank]
    rfl
  rw [if_neg hblank] at hline
  split at hline
  case isFalse => cases hline
  case isTrue hcalls =>
  simp only [Bool.and_eq_true] at hcalls
  obtain ⟨⟨hcolon, hsemi⟩, hcomment⟩ := hcalls
  obtain ⟨⟨name, words⟩, hdefn, hline⟩ := Option.bind_eq_some_iff.1 hline
  split at hline
  case isFalse => cases hline
  case isTrue hascii =>
  simp only [List.all_eq_true, decide_eq_true_eq] at hascii
  exact hstart.definition hrd (calls_of_calls? hcolon) (calls_of_calls? hsemi) (calls_of_calls? hcomment)
    hdefn hascii hline

/-! ### A constant -/

/-- A number that is interpreted is pushed. -/
theorem Fresh.number {pointCount : Cell}
    (hfresh : Fresh entries m) (hunknown : lookup entries token = none)
    (hread : Number.read? 10 token = some (.single value, pointCount)) :
    ∃ after, (∀ serve, interpretToken serve token m = .ok () after) ∧
      Follows { m with memory := m.memory.setCell Layout.pointCount pointCount }
        ⟨m.ip, [value], []⟩ after := by
  have hb := hfresh.idle.bounded
  have hnoted := hb.withMemory (Memory.size_setCell m.memory Layout.pointCount pointCount)
  obtain ⟨items, returns, hfol⟩ := Follows.exists_refl hnoted
  have hempty : items = [] := by
    have hdepth := hfol.items.depth_eq
    have htop := hfresh.empty
    refine List.eq_nil_of_length_eq_zero ?_
    change m.data.top + 4 * items.length = m.data.base at hdepth
    omega
  have hreturned : returns = [] := by
    have hdepth := hfol.returns.depth_eq
    have htop := hfresh.returned
    refine List.eq_nil_of_length_eq_zero ?_
    change m.returns.top + 4 * returns.length = m.returns.base at hdepth
    omega
  subst hempty hreturned
  have hpush := denotes_push value _ _ _ hfol
  rw [StackM.onThread, StackM.push, StackM.ofEffect, Items.push,
    if_pos (by change 0 < dataCells; decide)] at hpush
  obtain ⟨after, hok, hafter⟩ := hpush
  refine ⟨after, fun serve => ?_, hafter⟩
  exact (hfresh.idle.interpretToken_of_number hunknown hfresh.base_eq hread serve).trans (run_of_ok hok)

/-- `CONSTANT` takes the number and enters a word that pushes it. -/
theorem Idle.newConstant_eq
    {bytes : List UInt8} {rest : List (List UInt8)} (hidle : Idle entries m)
    (hitems : m.data.Carries m.memory [value]) (hret : m.returns.Carries m.memory [])
    (hrd : Reading bytes m) (hwords : Text.words bytes = encode name :: rest) (hhdr : HeaderRoom name m.dictionary)
    (hroom : (headed m.dictionary name).here + 4 ≤ (headed m.dictionary name).names) :
    ∃ after, DefiningWord.newConstant.perform m = .ok () after ∧
      Idle (headedEntry entries m.dictionary name 0 .pushCell :: entries) after ∧
      after.dictionary = { headed m.dictionary name with here := (headed m.dictionary name).here + 4 } ∧
      after.base = m.base ∧ after.exiting = m.exiting ∧ after.ip = m.ip ∧
      after.data.top = after.data.base ∧ after.returns.top = after.returns.base ∧ Reading (afterWord bytes) after := by
  have hfol : Follows m ⟨m.ip, [value], []⟩ m :=
    ⟨hidle.bounded, rfl, .refl _ _, hitems, hret⟩
  obtain ⟨popped, hpop, hpopped⟩ := denotes_pop _ _ _ hfol
  have hdict : popped.dictionary = m.dictionary := by rw [hpopped.machine_eq]
  have hready := hpopped.idle hidle
  rw [← hdict] at hhdr hroom ⊢
  obtain ⟨entered, hdefine, hb, hlex, hsame, hleft, hctl, hcursors, hstate⟩ :=
    define_eq 0 .pushCell hready.bounded hready.lexicon (hpopped.reading hidle.bounded hrd) hwords hhdr
  have hsite := (hready.isHeaded hb hctl hcursors).site
  rw [hcursors] at hsite
  have hcomma := performs_comma value entered hsite
  rw [Draft.emit, if_neg (Nat.not_lt.2 hroom)] at hcomma
  obtain ⟨after, hvalue, hafter, hwork⟩ := hcomma
  have hbelow : ∀ entry ∈ headedEntry entries popped.dictionary name 0 .pushCell :: entries,
      entry.address + size ≤ Header.body (Header.token (aligned popped.dictionary.here)) := by
    intro entry hentry
    have hins := (hlex.below entry hentry).2
    rw [hcursors] at hins
    exact hins
  have hwhole := hwork.undisturbed hafter.start_le (Nat.le_trans hafter.first_le hafter.here_le)
    hb.dictionary.names_le
  refine ⟨after, (bind_of_ok hpop).trans ((bind_of_ok (discard_of_ok hdefine)).trans hvalue),
    ⟨hafter.bounded, hlex.worked hbelow hafter hwork, hafter.top_eq, ?_⟩, ?_, ?_, ?_, ?_, ?_, ?_,
    hwork.reading hafter.start_le hb hleft⟩
  · rw [Machine.Compiling, hwork.cellAt_of_low hafter.start_le (by decide), hstate]
    exact hready.resting
  · have hhere : after.dictionary.here = (headed popped.dictionary name).here + 4 := hafter.here_eq
    rw [hwork.dictionary, hcursors, hhere]
  · exact hwhole.base_eq.trans (hsame.base_eq.trans hpopped.base_eq)
  · rw [hwhole.machine, hsame.machine, hpopped.machine_eq]
  · rw [hwhole.machine, hsame.machine, hpopped.machine_eq]
  · have hempty := hpopped.items.depth_eq
    rw [hwhole.machine, hsame.machine]
    exact hempty
  · have hreturned := hpopped.returns.depth_eq
    rw [hwhole.machine, hsame.machine]
    exact hreturned

/-- A line that defines a constant. -/
theorem Holds.constant {number : String} {pointCount : Cell}
    {bytes : List UInt8} (hholds : Holds held m) (hrd : Reading bytes m)
    (hwords : Text.words bytes = [encode number, encode "constant", encode name])
    (hunknown : lookup held.1 number = none) (hread : Number.read? 10 number = some (.single value, pointCount))
    (hcalls : Calls held.1 "constant" (.defining .newConstant) false) (hhdr : HeaderRoom name held.2)
    (hroom : (headed held.2 name).here + 4 ≤ (headed held.2 name).names) :
    Finishes [] m fun ended => ∃ after, ended = .ok () after ∧
      Holds (headedEntry held.1 held.2 name 0 .pushCell :: held.1,
        { headed held.2 name with here := (headed held.2 name).here + 4 }) after := by
  obtain ⟨toIn, hnext, hleft, hrest⟩ := nextToken?_of_reading hrd hholds.fresh.idle.bounded hwords
  have hmoved := hholds.readOn (.readTo m toIn)
  obtain ⟨pushed, htoken, hpush⟩ := hmoved.fresh.number hunknown hread
  have hnoted := hmoved.readOn (.note _ pointCount)
  have hready := hpush.idle hnoted.fresh.idle
  have hline := hpush.reading hnoted.fresh.idle.bounded (hleft.note hmoved.fresh.idle.bounded pointCount)
  have hexit : pushed.exiting = false := by
    rw [hpush.machine_eq]
    exact hnoted.fresh.exiting_eq
  refine .next hnext (fun fuel => htoken _) hexit ?_
  obtain ⟨further, hlater, hname, hlast⟩ := nextToken?_of_reading hline hready.bounded hrest
  have hcall := (ReadOn.readTo pushed further).idle hready
  have hidle := hcall.withIp 0
  have hitems : pushed.data.Carries (pushed.readTo further).memory [value] := by
    have hlimit := hready.bounded.data.limit_le
    have hregion := hready.bounded.data.limit_eq
    have horder := order
    refine hpush.items.frame (ReadOn.readTo pushed further).memory fun addr hlow hhigh hin => ?_
    rw [Region.holds_mk] at hin
    omega
  have hdict : pushed.dictionary = held.2 := by
    rw [hpush.machine_eq]
    exact hnoted.dictionary_eq
  obtain ⟨after, hok, hended, hcursors, hbase, hexiting, hip, hempty, hreturned, hleftOver⟩ :=
    hidle.newConstant_eq hitems ⟨hpush.returns.depth_eq, nofun⟩ (hname.withIp 0) hlast (by change HeaderRoom name pushed.dictionary; rwa [hdict])
      (by change (headed pushed.dictionary name).here + 4 ≤ _; rwa [hdict])
  change Idle (headedEntry held.1 pushed.dictionary name 0 .pushCell :: held.1) after at hended
  change after.dictionary = { headed pushed.dictionary name with here := (headed pushed.dictionary name).here + 4 }
    at hcursors
  rw [hdict] at hended hcursors
  have hfinal : Holds (headedEntry held.1 held.2 name 0 .pushCell :: held.1,
      { headed held.2 name with here := (headed held.2 name).here + 4 }) { after with ip := (pushed.readTo further).ip } := by
    refine ⟨⟨hended.withIp _, hempty, hreturned, ?_, ?_⟩, hcursors⟩
    · have hsame := ((ReadOn.readTo pushed further).undisturbed 0).base_eq
      exact hbase.trans (hsame.trans (hpush.base_eq.trans hnoted.fresh.base_eq))
    · exact hexiting.trans hexit
  refine .next hlater (hcalls.of_ok hcall.bounded hcall.lexicon hcall.compiling_iff rfl hok hip) hfinal.fresh.exiting_eq ?_
  refine Finishes.blank hfinal.fresh.idle.bounded (hleftOver.withIp _) (fun _ hnone => by cases hnone) ?_
    fun last hreadOn => ⟨last, rfl, hfinal.readOn hreadOn⟩
  rw [(nextWord_of_words_cons hlast).2.2]
  rfl

/-! ### All lines -/

theorem Holds.lines {lines : List String}
    (hholds : Holds held m) (hfits : ∀ line ∈ lines, (encode line).length ≤ inputBufferSize)
    (hlines : (lines.map encode).foldlM defineLine? held = some next) :
    ∃ after, Holds next after ∧ ∃ bound, ∀ fuel, bound ≤ fuel →
      lines.forM (interpretLine fuel) m = .ok () after := by
  induction lines generalizing held m with
  | nil =>
    cases hlines
    exact ⟨m, hholds, 0, fun _ _ => rfl⟩
  | cons line lines ih =>
    rw [List.map_cons, List.foldlM_cons] at hlines
    obtain ⟨middle, hline, hlines⟩ := Option.bind_eq_some_iff.1 hlines
    obtain ⟨between, hbetween, bound, hfst⟩ := (hholds.line (hfits line List.mem_cons_self) hline).exists_ok
    obtain ⟨after, hafter, later, hrest⟩ :=
      ih hbetween (fun other hother => hfits other (List.mem_cons_of_mem _ hother)) hlines
    refine ⟨after, hafter, max bound later, fun fuel hfuel => ?_⟩
    have hstep := hfst fuel (by omega)
    obtain ⟨_, _, hstep, hrun⟩ := of_bind_eq_ok hstep
    cases hrun
    exact (bind_of_ok hstep).trans (hrest fuel (by omega))

theorem defineLine?_adds {line : List UInt8}
    (hline : defineLine? held line = some next) : ∃ extras, next.1 = extras ++ held.1 := by
  rw [defineLine?] at hline
  split at hline
  · cases hline
    exact ⟨[], rfl⟩
  split at hline
  case isFalse => cases hline
  case isTrue =>
  obtain ⟨definition, _, hline⟩ := Option.bind_eq_some_iff.1 hline
  split at hline
  case isFalse => cases hline
  case isTrue =>
  obtain ⟨steps, _, hline⟩ := Option.bind_eq_some_iff.1 hline
  obtain ⟨draft, _, hline⟩ := Option.bind_eq_some_iff.1 hline
  split at hline
  · cases hline
    exact ⟨[_], rfl⟩
  · cases hline

theorem defineLines?_adds {lines : List (List UInt8)}
    (hlines : lines.foldlM defineLine? held = some next) : ∃ extras, next.1 = extras ++ held.1 := by
  induction lines generalizing held with
  | nil =>
    cases hlines
    exact ⟨[], rfl⟩
  | cons line lines ih =>
    obtain ⟨middle, hline, hlines⟩ := Option.bind_eq_some_iff.1 hlines
    obtain ⟨newer, hnewer⟩ := ih hlines
    obtain ⟨new, hnew⟩ := defineLine?_adds hline
    exact ⟨newer ++ new, by rw [hnewer, hnew, List.append_assoc]⟩

/-- The words of the prelude, newest first. -/
def preludeNames : List String :=
  ["2nip", "d0<", "u>", "?", "off", "on", "/string", "2variable", "2constant", "spaces", "space", "bl"]

theorem sameName_of_mem_preludeNames {prim : Prim} (hname : name ∈ preludeNames)
    (htoken : sameName prim.name token = true) : sameName name token = false := by
  have hall : ∀ name ∈ preludeNames, ∀ prim ∈ Prim.all, nameKey name ≠ nameKey prim.name := by decide +kernel
  rw [← Bool.not_eq_true]
  intro hsame
  exact hall name hname prim prim.mem_all ((nameKey_eq hsame).trans (nameKey_eq htoken).symm)

/-- The dictionary once the first line of the prelude was interpreted. -/
def withBlank : List Header × Dictionary :=
  (headedEntry builtin.1 builtin.2 "bl" 0 .pushCell :: builtin.1,
    { headed builtin.2 "bl" with here := (headed builtin.2 "bl").here + 4 })

/-- The lines of the prelude go well, and define its words. -/
def preludeChecks (bytes : List UInt8) (lines : List (List UInt8)) : Bool :=
  bytes.all (· < 128) && lines.all (·.length ≤ inputBufferSize) &&
    match lines with
    | [] => false
    | first :: rest => Text.words first == [[51, 50], [99, 111, 110, 115, 116, 97, 110, 116], [98, 108]] &&
      match rest.foldlM defineLine? withBlank with
      | none => false
      | some held => held.1.map Header.name == preludeNames ++ builtin.1.map Header.name

theorem preludeChecks_prelude :
    preludeChecks preludeText.toByteArray.data.toList (lineBytes preludeText) = true := by decide +kernel

theorem Holds.blank {line : String} (hholds : Holds builtin m)
    (hfits : (encode line).length ≤ inputBufferSize)
    (hline : Text.words (encode line) = ["32", "constant", "bl"].map encode) :
    Settles [line] m fun ended => ∃ after, ended = .ok () after ∧ Holds withBlank after := by
  have hunknown : lookup builtin.1 "32" = none :=
    lookup_builtin_none (Prim.sameName_of_isNumeral (by decide))
  have hcalls : Calls builtin.1 "constant" (.defining .newConstant) false := calls_builtin (by decide) (by decide)
  have hread : Number.read? 10 "32" = some (.single 32, -1) := by decide
  obtain ⟨hhdr, hroom⟩ := @builtin_room "bl" (by decide)
  exact Settles.of_finishes hholds.fresh.idle.bounded hfits
    ((hholds.readOn (ReadOn.withLine m hfits)).constant
      (reading_withLine hholds.fresh.idle.bounded hfits) hline hunknown hread hcalls hhdr
      (Nat.le_trans (Nat.add_le_add_left (by decide) _) hroom))

/-- The prelude can be interpreted. -/
theorem Holds.prelude (hholds : Holds builtin m) :
    ∃ extras after, (extras.map Header.name = preludeNames) ∧ Fresh (extras ++ builtin.1) after ∧
      ∃ bound, ∀ fuel, bound ≤ fuel → interpretText fuel preludeText m = .ok () after := by
  have hchecks := preludeChecks_prelude
  simp only [preludeChecks, Bool.and_eq_true, List.all_eq_true, decide_eq_true_eq] at hchecks
  obtain ⟨⟨hascii, hfits⟩, hchecks⟩ := hchecks
  rw [← map_encode_ofText hascii] at hfits hchecks
  have hfits : ∀ line ∈ Lines.ofText preludeText, (encode line).length ≤ inputBufferSize :=
    fun line hline => hfits _ (List.mem_map_of_mem hline)
  cases hlines : Lines.ofText preludeText with
  | nil =>
    rw [hlines] at hchecks
    cases hchecks
  | cons first rest =>
    simp only [hlines, List.map_cons, Bool.and_eq_true, beq_iff_eq] at hchecks
    obtain ⟨hfst, hchecks⟩ := hchecks
    cases hrest : (rest.map encode).foldlM defineLine? withBlank with
    | none =>
      rw [hrest] at hchecks
      cases hchecks
    | some held =>
      rw [hlines] at hfits
      simp only [hrest, beq_iff_eq] at hchecks
      obtain ⟨between, hbetween, bound, hblank⟩ := (hholds.blank (hfits first List.mem_cons_self)
        (hfst.trans (by decide))).exists_ok
      obtain ⟨after, hafter, later, hlater⟩ :=
        hbetween.lines (fun line hline => hfits line (List.mem_cons_of_mem _ hline)) hrest
      obtain ⟨newer, hnewer⟩ := defineLines?_adds hrest
      have hheld : held.1 = (newer ++ [headedEntry builtin.1 builtin.2 "bl" 0 .pushCell]) ++ builtin.1 := by
        rw [hnewer, List.append_assoc]
        rfl
      rw [hheld, List.map_append] at hchecks
      refine ⟨_, after, List.append_cancel_right hchecks, hheld ▸ hafter.fresh, max bound later, fun fuel hfuel => ?_⟩
      obtain ⟨_, _, hstep, hrun⟩ := of_bind_eq_ok (hblank fuel (by omega))
      cases hrun
      rw [interpretText, hlines]
      exact (bind_of_ok hstep).trans (hlater fuel (by omega))

/-- What a session that was started holds: the primitives and, above them, the words of the prelude. -/
theorem Session.fresh_of_start {fuel : Nat} {withPrelude : Bool} {disk : Disk} {verbose : Bool}
    (hstart : start fuel withPrelude (Machine.new disk verbose) = .ok () m) :
    ∃ extras, Fresh (extras ++ builtin.1) m ∧ ∀ extra ∈ extras, extra.name ∈ preludeNames := by
  obtain ⟨started, hplain, hholds⟩ := start_eq disk verbose
  cases withPrelude with
  | false =>
    cases (hplain fuel).symm.trans hstart
    exact ⟨[], hholds.fresh, fun _ hnone => by cases hnone⟩
  | true =>
    obtain ⟨extras, after, hnames, hafter, bound, hprelude⟩ := hholds.prelude
    obtain ⟨_, installed, hinstall, hrest⟩ := of_bind_eq_ok (hplain fuel)
    obtain ⟨_, _, hresting, hrest⟩ := of_bind_eq_ok hrest
    cases hrest
    have htext : interpretText fuel preludeText started = .ok () m := by
      rw [start, bind_of_ok hinstall, bind_of_ok hresting] at hstart
      exact hstart
    have hmore : Extends (interpretText fuel preludeText) (interpretText (max bound fuel) preludeText) :=
      extends_interpretEach (by omega) _
    cases (Extends.of_ok htext).symm.trans (hprelude (max bound fuel) (by omega))
    exact ⟨extras, hafter, fun extra hextra => hnames ▸ List.mem_map_of_mem hextra⟩

end ThreadedForth
