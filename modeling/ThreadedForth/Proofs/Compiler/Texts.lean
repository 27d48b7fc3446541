
import ThreadedForth.Proofs.Compiler.Drafting
import ThreadedForth.Proofs.Interpreter.Fuel

/-!
# Definitions as text

A definition is written in one line or in several, wherever its words allow. Here is what a session makes of the
whole text: with enough fuel it ends with the new word in the dictionary, or, for a lack of room, in a fault.
-/

namespace ThreadedForth

open WordM Dictionary Layout Utf8 Header Draft List Region Session Text
open Interpreter

/-- The words of a line. -/
def Text.ofLine (line : String) : List (List UInt8) := Text.words (encode line)

/-! ### The rest of a text -/

/-- Interpret what is left of the current line, and then more lines. -/
def Session.interpretRest (fuel more : Nat) (lines : List String) : RunM Unit := do
  interpretSource (serve fuel) more
  lines.forM (interpretLine fuel)

variable {fuel : Nat} {line : String} {lines : List String} {post : EStateM.Result Halt Machine Unit → Prop}
  {before : Machine} {result : Machine → Prop} {bytes : List UInt8}

theorem Session.interpretEach_cons {m : Machine}
    (hb : m.Bounded) (hline : (encode line).length ≤ inputBufferSize) :
    (line :: lines).forM (interpretLine fuel) m =
      interpretRest fuel fuel lines (withLine m (encode line)) := by
  have hstep := @interpretLine_eq (serve fuel) _ fuel _ hb.size_eq hline
  change EStateM.bind _ _ _ = EStateM.bind _ _ _
  rw [EStateM.bind, interpretLine, hstep, EStateM.bind]

theorem Session.interpretEach_one (fuel : Nat) (line : String) :
    [line].forM (interpretLine fuel) = interpretLine fuel line := by
  simp

/-- With enough fuel, interpreting the rest of a text ends in a certain way. -/
def Finishes (lines : List String) (m : Machine) (post : EStateM.Result Halt Machine Unit → Prop) : Prop :=
  ∃ bound, ∀ fuel, bound ≤ fuel → ∀ more, bound ≤ more → post (interpretRest fuel more lines m)

/-- With enough fuel, interpreting the lines ends in a certain way. -/
def Settles (lines : List String) (m : Machine) (post : EStateM.Result Halt Machine Unit → Prop) : Prop :=
  ∃ bound, ∀ fuel, bound ≤ fuel → post (lines.forM (interpretLine fuel) m)

namespace Finishes

variable {line token : String} {lines : List String} {bytes : List UInt8} {before after : Machine} {toIn : Cell}
  {post : EStateM.Result Halt Machine Unit → Prop}

theorem step (least : Nat) (hnext : nextToken? before = .ok (some token) (before.readTo toIn))
    (htoken : ∀ fuel, least ≤ fuel →
      interpretToken (serve fuel) token (before.readTo toIn) = .ok () after)
    (hexit : after.exiting = false) (hrest : Finishes lines after post) : Finishes lines before post := by
  obtain ⟨bound, hbound⟩ := hrest
  refine ⟨bound + least + 1, fun fuel hfuel more hmore => ?_⟩
  obtain ⟨more, rfl⟩ := Nat.exists_eq_add_of_le' (Nat.le_trans (Nat.le_add_left 1 _) hmore)
  have hstep := @interpretSource_of_token _ _ _ more _ _ hnext (htoken fuel (by omega)) hexit
  have hsame : interpretRest fuel (more + 1) lines before = interpretRest fuel more lines after := by
    change EStateM.bind _ _ _ = EStateM.bind _ _ _
    rw [EStateM.bind, hstep, EStateM.bind]
  rw [hsame]
  exact hbound fuel (by omega) more (by omega)

theorem stop (least : Nat) (hnext : nextToken? before = .ok (some token) (before.readTo toIn))
    (htoken : ∀ fuel, least ≤ fuel → ∃ halt after,
      interpretToken (serve fuel) token (before.readTo toIn) = .error halt after ∧
        post (.error halt after)) : Finishes lines before post := by
  refine ⟨least + 1, fun fuel hfuel more hmore => ?_⟩
  obtain ⟨more, rfl⟩ := Nat.exists_eq_add_of_le' (Nat.le_trans (Nat.le_add_left 1 _) hmore)
  obtain ⟨halt, after, herror, hpost⟩ := htoken fuel (by omega)
  rw [interpretRest, bind_of_error (interpretSource_of_error hnext herror)]
  exact hpost

theorem next (hnext : nextToken? before = .ok (some token) (before.readTo toIn))
    (htoken : ∀ fuel, interpretToken (serve (fuel + 2)) token (before.readTo toIn) = .ok () after)
    (hexit : after.exiting = false) (hrest : Finishes lines after post) : Finishes lines before post := by
  refine step 2 hnext (fun fuel hfuel => ?_) hexit hrest
  obtain ⟨fuel, rfl⟩ := Nat.exists_eq_add_of_le' hfuel
  exact htoken fuel

theorem fail (hnext : nextToken? before = .ok (some token) (before.readTo toIn))
    (htoken : ∀ fuel, ∃ halt after,
      interpretToken (serve (fuel + 2)) token (before.readTo toIn) = .error halt after)
    (hpost : ∀ halt after, post (.error halt after)) : Finishes lines before post := by
  refine stop 2 hnext fun fuel hfuel => ?_
  obtain ⟨fuel, rfl⟩ := Nat.exists_eq_add_of_le' hfuel
  obtain ⟨halt, after, herror⟩ := htoken fuel
  exact ⟨halt, after, herror, hpost halt after⟩

theorem newline (hnext : nextToken? before = .ok none (before.readTo toIn))
    (hb : (before.readTo toIn).Bounded) (hline : (encode line).length ≤ inputBufferSize)
    (hrest : Finishes lines (withLine (before.readTo toIn) (encode line)) post) :
    Finishes (line :: lines) before post := by
  obtain ⟨bound, hbound⟩ := hrest
  refine ⟨bound + 1, fun fuel hfuel more hmore => ?_⟩
  obtain ⟨more, rfl⟩ := Nat.exists_eq_add_of_le' (Nat.le_trans (Nat.le_add_left 1 bound) hmore)
  rw [interpretRest, bind_of_ok (interpretSource_of_end hnext),
    interpretEach_cons hb hline]
  exact hbound fuel (by omega) fuel (by omega)

theorem done (hnext : nextToken? before = .ok none (before.readTo toIn)) (hpost : post (.ok () (before.readTo toIn))) :
    Finishes [] before post := by
  refine ⟨1, fun fuel _ more hmore => ?_⟩
  obtain ⟨more, rfl⟩ := Nat.exists_eq_add_of_le' hmore
  rw [interpretRest, bind_of_ok (interpretSource_of_end hnext)]
  exact hpost

end Finishes

theorem Settles.of_finishes {m : Machine} (hb : m.Bounded) (hline : (encode line).length ≤ inputBufferSize)
    (hrest : Finishes lines (withLine m (encode line)) post) : Settles (line :: lines) m post := by
  obtain ⟨bound, hbound⟩ := hrest
  refine ⟨bound, fun fuel hfuel => ?_⟩
  rw [interpretEach_cons hb hline]
  exact hbound fuel hfuel fuel hfuel

theorem Settles.of_ok {after : Machine} (hsettles : Settles lines before post)
    (hrun : lines.forM (interpretLine fuel) before = .ok () after) : post (.ok () after) := by
  obtain ⟨bound, hbound⟩ := hsettles
  have := extends_interpretEach (Nat.le_max_left fuel bound) lines
  have hmore : lines.forM (interpretLine (max fuel bound)) before = .ok () after := Extends.of_ok hrun
  rw [← hmore]
  exact hbound _ (Nat.le_max_right fuel bound)

theorem Settles.exists_ok (hsettles : Settles lines before fun ended => ∃ after, ended = .ok () after ∧ result after) :
    ∃ after, result after ∧ ∃ bound, ∀ fuel, bound ≤ fuel →
      lines.forM (interpretLine fuel) before = .ok () after := by
  obtain ⟨bound, hbound⟩ := hsettles
  obtain ⟨after, hrun, hres⟩ := hbound bound (Nat.le_refl bound)
  refine ⟨after, hres, bound, fun fuel hfuel => ?_⟩
  have := extends_interpretEach hfuel lines
  exact Extends.of_ok hrun

theorem Settles.append {more : List String}
    (hfst : Settles lines before fun ended => ∃ after, ended = .ok () after ∧ result after)
    (hsnd : ∀ after, result after → Settles more after post) : Settles (lines ++ more) before post := by
  obtain ⟨after, hres, bound, hrun⟩ := hfst.exists_ok
  obtain ⟨other, hpost⟩ := hsnd after hres
  refine ⟨max bound other, fun fuel hfuel => ?_⟩
  have hboth : (lines ++ more).forM (interpretLine fuel) before = more.forM (interpretLine fuel) after := by
    refine (congrFun forM_append before).trans ?_
    exact bind_of_ok (hrun fuel (by omega))
  rw [hboth]
  exact hpost fuel (by omega)

/-! ### From word to word -/

/-- The machine has gone on in the text. -/
structure ReadOn (before after : Machine) : Prop where
  machine : after = { before with memory := after.memory, source := after.source }
  memory : Memory.SameOutside (Region.mk Layout.toIn pad).Holds before.memory after.memory

namespace ReadOn

variable {before middle after : Machine}

theorem refl (m : Machine) : ReadOn m m := ⟨rfl, .refl _ _⟩

theorem trans (hfst : ReadOn before middle) (hsnd : ReadOn middle after) : ReadOn before after := by
  refine ⟨?_, hfst.memory.trans hsnd.memory⟩
  rw [hsnd.machine, hfst.machine]

theorem readTo (m : Machine) (toIn : Cell) : ReadOn m (m.readTo toIn) := by
  have horder := order
  refine ⟨rfl, (Memory.sameOutside_setCell _ _ _).mono fun addr hin => ?_⟩
  rw [holds_mk] at hin ⊢
  omega

theorem note (m : Machine) (pointCount : Cell) :
    ReadOn m { m with memory := m.memory.setCell Layout.pointCount pointCount } := by
  have horder := order
  refine ⟨rfl, (Memory.sameOutside_setCell _ _ _).mono fun addr hin => ?_⟩
  rw [holds_mk] at hin ⊢
  omega

theorem withLine (m : Machine) {line : List UInt8} (hline : line.length ≤ inputBufferSize) :
    ReadOn m (withLine m line) :=
  ⟨rfl, sameOutside_withLine m hline⟩

theorem bounded (hreadOn : ReadOn before after) (hb : before.Bounded) : after.Bounded := by
  rw [hreadOn.machine]
  exact { hb.withMemory hreadOn.memory.size with }

theorem low (hreadOn : ReadOn before after) :
    Memory.SameOutside (Region.mk Layout.base dictionaryStart).Holds before.memory after.memory := by
  have horder := Layout.order
  refine hreadOn.memory.mono fun addr hin => ?_
  rw [Region.holds_mk] at hin ⊢
  omega

theorem undisturbed (hreadOn : ReadOn before after) (limit : Nat) : Undisturbed limit before after := by
  have horder := order
  refine ⟨?_, hreadOn.memory.mono fun addr hin => ?_⟩
  · rw [hreadOn.machine]
  · rw [holds_mk] at hin
    refine ⟨.inl (by omega), by omega, fun hbase => ?_⟩
    rw [holds_mk] at hbase
    omega

variable {entries : List Header}

theorem drafting {first : Nat} {draft : Draft} (hreadOn : ReadOn before after)
    (hd : Drafting entries first draft before) : Drafting entries first draft after :=
  hd.frame (hreadOn.bounded hd.site.bounded) (by rw [hreadOn.machine])
    (by rw [hreadOn.machine]) hreadOn.low

theorem idle (hreadOn : ReadOn before after) (hidle : Idle entries before) : Idle entries after := by
  have hstart : before.dictionary.start = dictionaryStart := hidle.bounded.dictionary.start_eq
  have hlow := hreadOn.low
  refine ⟨hreadOn.bounded hidle.bounded, ?_, ?_, ?_⟩
  · refine hidle.lexicon.transfer (by rw [hreadOn.machine]) hlow (fun addr hin => .inl ?_)
      hidle.bounded.dictionary.here_le
    rw [holds_mk] at hin
    omega
  · rw [hreadOn.machine]
    exact hidle.closed
  · have horder := order
    rw [Machine.Compiling, hlow.cellAt fun other _ hother hin => by rw [holds_mk] at hin; omega]
    exact hidle.resting

end ReadOn

/-- The next word of a text is found on the current line or on a later one. -/
theorem Finishes.seek {token : String} {rest : List (List UInt8)} (hb : before.Bounded) (hrd : Reading bytes before)
    (hfits : ∀ line ∈ lines, (encode line).length ≤ inputBufferSize)
    (hwords : Text.words bytes ++ lines.flatMap ofLine = encode token :: rest)
    (hfound : ∀ m toIn left remaining, ReadOn before m →
      nextToken? m = .ok (some token) (m.readTo toIn) → Reading left (m.readTo toIn) →
      (∀ line ∈ remaining, line ∈ lines) → Text.words left ++ remaining.flatMap ofLine = rest →
        Finishes remaining m post) : Finishes lines before post := by
  induction lines generalizing before bytes with
  | nil =>
    rw [flatMap_nil, append_nil] at hwords
    obtain ⟨toIn, hnext, hleft, hrest⟩ := nextToken?_of_reading hrd hb hwords
    refine hfound before toIn _ [] (.refl _) hnext hleft (fun _ hline => hline) ?_
    rw [hrest, flatMap_nil, append_nil]
  | cons line lines ih =>
    cases hfst : Text.words bytes with
    | cons word words =>
      rw [hfst, cons_append, cons_eq_cons] at hwords
      obtain ⟨toIn, hnext, hleft, hrest⟩ := nextToken?_of_reading hrd hb (hwords.1 ▸ hfst)
      refine hfound before toIn _ (line :: lines) (.refl _) hnext hleft (fun _ hline => hline) ?_
      rw [hrest, hwords.2]
    | nil =>
      obtain ⟨toIn, hnext⟩ := nextToken?_of_end hrd hb hfst
      have hline := hfits line mem_cons_self
      have hread := (ReadOn.readTo before toIn).bounded hb
      have hnew := (ReadOn.readTo before toIn).trans (.withLine _ hline)
      refine Finishes.newline hnext hread hline (ih (hnew.bounded hb) (reading_withLine hread hline)
        (fun other hother => hfits other (mem_cons_of_mem _ hother)) ?_ ?_)
      · rw [hfst, nil_append, flatMap_cons] at hwords
        exact hwords
      · intro m toIn left remaining hreadOn hnext hleft hsub
        exact hfound m toIn left remaining (hnew.trans hreadOn) hnext hleft
          fun other hother => mem_cons_of_mem _ (hsub other hother)

theorem Finishes.blank (hb : before.Bounded) (hrd : Reading bytes before)
    (hfits : ∀ line ∈ lines, (encode line).length ≤ inputBufferSize)
    (hwords : Text.words bytes ++ lines.flatMap ofLine = [])
    (hpost : ∀ after, ReadOn before after → post (.ok () after)) : Finishes lines before post := by
  induction lines generalizing before bytes with
  | nil =>
    rw [flatMap_nil, append_nil] at hwords
    obtain ⟨toIn, hnext⟩ := nextToken?_of_end hrd hb hwords
    exact .done hnext (hpost _ (.readTo before toIn))
  | cons line lines ih =>
    obtain ⟨hfst, hrest⟩ := append_eq_nil_iff.1 hwords
    obtain ⟨toIn, hnext⟩ := nextToken?_of_end hrd hb hfst
    have hline := hfits line mem_cons_self
    have hread := (ReadOn.readTo before toIn).bounded hb
    have hnew := (ReadOn.readTo before toIn).trans (.withLine _ hline)
    refine Finishes.newline hnext hread hline (ih (hnew.bounded hb) (reading_withLine hread hline)
      (fun other hother => hfits other (mem_cons_of_mem _ hother)) ?_
      fun after hreadOn => hpost after (hnew.trans hreadOn))
    rw [flatMap_cons] at hrest
    exact hrest

theorem Settles.blank {m : Machine} (hb : m.Bounded) :
    Settles [""] m fun ended => ∃ after, ended = .ok () after ∧ ReadOn m after := by
  have hfits : (encode "").length ≤ inputBufferSize := by decide
  have hnew := ReadOn.withLine m hfits
  exact .of_finishes hb hfits (.blank (hnew.bounded hb) (reading_withLine hb hfits)
    (fun _ hnone => nomatch hnone) (by decide) fun after hreadOn => ⟨after, rfl, hnew.trans hreadOn⟩)

/-! ### Definitions -/

/-- What the words of a definition make of a draft. -/
def Draft.run (steps : List (Draft → Option Draft)) (draft : Draft) : Option Draft :=
  steps.foldlM (fun draft step => step draft) draft

/-- The words do these things to a definition. -/
abbrev Steps (entries : List Header) (base : Except Fault Nat) (tokens : List String)
    (steps : List (Draft → Option Draft)) : Prop :=
  List.Forall₂ (fun token step => stepOf? entries base token = some step) tokens steps

section Definitions

variable {entries : List Header} {base : Except Fault Nat} {lines : List String} {tokens : List String}
  {steps : List (Draft → Option Draft)} {post : EStateM.Result Halt Machine Unit → Prop}

variable {before after : Machine} {bytes : List UInt8} {draft : Draft} {first : Nat} {rest : List (List UInt8)}
  {name : String} {entry : Header}

/-- The words of a definition are compiled one after the other, unless one of them fails. -/
theorem Drafting.finishes (hsteps : Steps entries base tokens steps) (hd : Drafting entries first draft before)
    (hbase : before.base = base) (hexit : before.exiting = false) (hrd : Reading bytes before)
    (hfits : ∀ line ∈ lines, (encode line).length ≤ inputBufferSize)
    (hwords : Text.words bytes ++ lines.flatMap ofLine = tokens.map encode ++ rest)
    (hfail : run steps draft = none → ∀ halt after, post (.error halt after))
    (hlaid : ∀ next, run steps draft = some next → ∀ after left remaining, Drafting entries first next after →
      Undisturbed first before after → Reading left after → (∀ line ∈ remaining, line ∈ lines) →
      Text.words left ++ remaining.flatMap ofLine = rest → Finishes remaining after post) :
    Finishes lines before post := by
  induction hsteps generalizing draft before bytes lines with
  | nil => exact hlaid draft rfl before bytes lines hd (.refl _ _) hrd (fun _ hline => hline) hwords
  | @cons token step tokens steps hstep _ ih =>
    refine Finishes.seek hd.site.bounded hrd hfits hwords ?_
    intro m toIn left remaining hreadOn hnext hleft hsub hrest
    have hmoved := hreadOn.trans (.readTo m toIn)
    have hmovedSame := hmoved.undisturbed first
    have hadvances := (hmoved.drafting hd).advances (hmovedSame.base_eq.trans hbase) hstep
    have hrun : run (step :: steps) draft = (step draft).bind (run steps) := rfl
    cases houtcome : step draft with
    | none =>
      rw [houtcome] at hadvances
      exact .fail hnext hadvances (hfail (by rw [hrun, houtcome]; rfl))
    | some next =>
      rw [houtcome] at hadvances hrun
      obtain ⟨after, htoken, hafter, hundist, hkept⟩ := hadvances
      have hsame := hmovedSame.trans hundist
      refine .next hnext htoken (hsame.exiting_eq.trans hexit) ?_
      refine ih hafter (hsame.base_eq.trans hbase) (hsame.exiting_eq.trans hexit) (hkept _ hleft)
        (fun line hline => hfits line (hsub line hline)) hrest (fun hnone => hfail (hrun.trans hnone)) ?_
      intro last hlast ended unread others hended hlater hunread hothers hwords
      exact hlaid last (hrun.trans hlast) ended unread others hended (hsame.trans hlater) hunread
        (fun line hline => hsub line (hothers line hline)) hwords

/-- A text that defines a word: the name behind `:`, on the same line, then the words of the definition, and `;`. -/
structure DefinitionText (name : String) (tokens : List String) (lines : List String) : Prop where
  fits : ∀ line ∈ lines, (encode line).length ≤ inputBufferSize
  opening : ∃ line rest words, lines = line :: rest ∧ ofLine line = encode ":" :: encode name :: words
  words : lines.flatMap ofLine = (":" :: name :: tokens ++ [";"]).map encode

/-- The machine once a definition was closed. -/
structure Completed (entries : List Header) (name : String) (draft : Draft) (before after : Machine) : Prop where
  idle : Idle ((headedEntry entries before.dictionary name smudged .colon).revealed :: entries) after
  undisturbed : Undisturbed before.dictionary.here before after
  here_eq : after.dictionary.here = draft.here + 4
  names_eq : after.dictionary.names = draft.names
  cells : ∀ address, draft.InRange (headed before.dictionary name).here address →
    after.memory.cellAt address = draft.cells address
  exit : after.memory.cellAt draft.here = Cell.ofNat (Prim.thread .exit).token

/-- There is room for the whole definition. -/
def Roomy (dictionary : Dictionary) (name : String) (steps : List (Draft → Option Draft)) : Prop :=
  HeaderRoom name dictionary ∧ ∃ draft, run steps (openedDraft dictionary name) = some draft ∧
    draft.here + 4 ≤ draft.names

theorem Completed.start_le
    (hcomp : Completed entries name draft before after) : dictionaryStart ≤ aligned before.dictionary.here := by
  have hstart : after.dictionary.start = dictionaryStart := hcomp.idle.bounded.dictionary.start_eq
  have hnewest := (hcomp.idle.lexicon.below _ mem_cons_self).1
  rw [hstart] at hnewest
  exact hnewest

theorem Completed.readOn {middle : Machine}
    (hcomp : Completed entries name draft before middle) (hreadOn : ReadOn middle after)
    (hfst : dictionaryStart ≤ (headed before.dictionary name).here)
    (hdraft : (headed before.dictionary name).here ≤ draft.here) : Completed entries name draft before after := by
  have hcells (addr : Nat) (haddr : dictionaryStart ≤ addr) :
      after.memory.cellAt addr = middle.memory.cellAt addr :=
    hreadOn.low.cellAt fun other hother _ hin => by rw [holds_mk] at hin; omega
  refine ⟨hreadOn.idle hcomp.idle, hcomp.undisturbed.trans (hreadOn.undisturbed _), ?_, ?_, ?_, ?_⟩
  · rw [hreadOn.machine]
    exact hcomp.here_eq
  · rw [hreadOn.machine]
    exact hcomp.names_eq
  · intro addr hin
    rw [hcells addr (Nat.le_trans hfst hin.1)]
    exact hcomp.cells addr hin
  · rw [hcells draft.here (Nat.le_trans hfst hdraft)]
    exact hcomp.exit

/-- `;` closes the definition, if there is room for the return. -/
theorem Drafting.finishes_close
    (hd : Drafting (entry :: entries) first draft before) (hfst : body entry.xt = first)
    (hmarks : draft.markers = [⟨.colon, entry.xt⟩])
    (hsemi : Calls (entry :: entries) ";" (.defining .semicolon) true) (hexit : before.exiting = false)
    (hrd : Reading bytes before) (hfits : ∀ line ∈ lines, (encode line).length ≤ inputBufferSize)
    (hwords : Text.words bytes ++ lines.flatMap ofLine = encode ";" :: rest)
    (hfail : draft.names < draft.here + 4 → ∀ halt after, post (.error halt after))
    (hclosed : draft.here + 4 ≤ draft.names → ∀ after left remaining, Idle (entry.revealed :: entries) after →
      Undisturbed entry.address before after → after.dictionary.here = draft.here + 4 →
      after.dictionary.names = draft.names →
      (∀ addr, draft.InRange first addr → after.memory.cellAt addr = draft.cells addr) →
      after.memory.cellAt draft.here = Cell.ofNat (Prim.thread .exit).token → Reading left after →
      (∀ line ∈ remaining, line ∈ lines) → Text.words left ++ remaining.flatMap ofLine = rest →
        Finishes remaining after post) : Finishes lines before post := by
  refine Finishes.seek hd.site.bounded hrd hfits hwords ?_
  intro m toIn left remaining hreadOn hnext hleft hsub hrest
  have hmoved := hreadOn.trans (.readTo m toIn)
  have hopen := hmoved.drafting hd
  rcases Nat.lt_or_ge draft.names (draft.here + 4) with hfull | hroom
  · obtain ⟨fault, after, herror⟩ := (hopen.withIp 0).close_fails hmarks hfull
    exact .fail hnext (fun fuel => ⟨_, _, hsemi.of_error hopen.site.bounded hopen.lexicon hopen.compiling_iff rfl herror fuel⟩)
      (hfail hfull)
  · obtain ⟨done, hok, hidle, hsame, hkept, hdict, hcells, hlast⟩ :=
      (hopen.withIp 0).closes hfst hmarks hroom
    obtain ⟨hip, hundist⟩ := hsame.withIp
    have hwhole := (hmoved.undisturbed entry.address).trans hundist
    refine .next hnext (hsemi.of_ok hopen.site.bounded hopen.lexicon hopen.compiling_iff rfl hok hip)
      (hwhole.exiting_eq.trans hexit) ?_
    refine hclosed hroom _ left remaining (hidle.withIp _) hwhole
      (congrArg Dictionary.here hdict) ?_ hcells hlast ((hkept _ (hleft.withIp 0)).withIp _) hsub hrest
    exact (congrArg Dictionary.names hdict).trans hopen.site.names_eq

theorem Calls.cons_of_hidden {token : String} {prim : Prim} {compiling : Bool}
    (hcalls : Calls entries token prim compiling) (hhidden : entry.isVisible = false) :
    Calls (entry :: entries) token prim compiling := by
  obtain ⟨header, hlook, hrest⟩ := hcalls
  exact ⟨header, (lookup_cons_of_hidden hhidden).trans hlook, hrest⟩

theorem Steps.cons_of_hidden (hsteps : Steps entries base tokens steps)
    (hhidden : entry.isVisible = false) : Steps (entry :: entries) base tokens steps := by
  refine List.Forall₂.imp (fun token step hstep => ?_) hsteps
  rw [stepOf?, lookup_cons_of_hidden hhidden]
  exact hstep

/-- `:` opens a definition, if there is room for its header. -/
theorem Idle.finishes_open {words : List (List UInt8)} {m : Machine}
    (hidle : Idle entries m) (hexit : m.exiting = false) (hrd : Reading bytes m)
    (hwords : Text.words bytes = encode ":" :: encode name :: words)
    (hcolon : Calls entries ":" (.defining .colon) false)
    (hfail : ¬ HeaderRoom name m.dictionary → ∀ halt after, post (.error halt after))
    (hopened : HeaderRoom name m.dictionary → ∀ after,
      Drafting (headedEntry entries m.dictionary name smudged .colon :: entries)
        (headed m.dictionary name).here (openedDraft m.dictionary name) after →
      Undisturbed m.dictionary.here m after → Reading (afterWord (afterWord bytes)) after →
        Finishes lines after post) : Finishes lines m post := by
  obtain ⟨toIn, hnext, hleft, hname⟩ := nextToken?_of_reading hrd hidle.bounded hwords
  have hmoved := ReadOn.readTo m toIn
  have hready := hmoved.idle hidle
  have hidleIp := hready.withIp 0
  by_cases hroom : HeaderRoom name m.dictionary
  · obtain ⟨after, hok, hd, hsame, hread⟩ := hidleIp.opens (hleft.withIp 0) hname hroom
    obtain ⟨hip, hundist⟩ := hsame.withIp
    have hwhole := (hmoved.undisturbed m.dictionary.here).trans hundist
    refine .next hnext (hcolon.of_ok hready.bounded hready.lexicon hready.compiling_iff rfl hok hip)
      (hwhole.exiting_eq.trans hexit) ?_
    exact hopened hroom _ (hd.withIp _) hwhole (hread.withIp _)
  · obtain ⟨fault, after, herror⟩ := hidleIp.open_fails (hleft.withIp 0) hname hroom
    exact .fail hnext (fun fuel => ⟨_, _, hcolon.of_error hready.bounded hready.lexicon hready.compiling_iff rfl herror fuel⟩)
      (hfail hroom)

/-- How the text of a definition ends. -/
def Defines (entries : List Header) (name : String) (steps : List (Draft → Option Draft)) (before : Machine) :
    EStateM.Result Halt Machine Unit → Prop
  | .ok _ after => Roomy before.dictionary name steps ∧ ∃ draft,
      run steps (openedDraft before.dictionary name) = some draft ∧ Completed entries name draft before after
  | .error _ _ => ¬ Roomy before.dictionary name steps

theorem Defines.readOn {start : Machine} {result : EStateM.Result Halt Machine Unit}
    (hdefines : Defines entries name steps before result) (hreadOn : ReadOn start before) :
    Defines entries name steps start result := by
  have hdict : start.dictionary = before.dictionary := by rw [hreadOn.machine]
  cases result with
  | error halt after => exact fun hroomy => hdefines (hdict ▸ hroomy)
  | ok answer after =>
    obtain ⟨hroomy, draft, hdraft, hcomp⟩ := hdefines
    refine ⟨hdict ▸ hroomy, draft, hdict ▸ hdraft, ?_⟩
    obtain ⟨hidle, hundist, hhere, hnames, hcells, hexit⟩ := hcomp
    rw [← hdict] at hidle hundist hcells
    exact ⟨hidle, (hreadOn.undisturbed _).trans hundist, hhere, hnames, hcells, hexit⟩

/-- A definition was opened, and its words follow. -/
theorem Drafting.finishes_definition {opened : Machine}
    (hd : Drafting (headedEntry entries before.dictionary name smudged .colon :: entries)
      (headed before.dictionary name).here (openedDraft before.dictionary name) opened)
    (hhdr : HeaderRoom name before.dictionary) (hopened : Undisturbed before.dictionary.here before opened)
    (hbase : before.base = base) (hexit : before.exiting = false) (hrd : Reading bytes opened)
    (hfits : ∀ line ∈ lines, (encode line).length ≤ inputBufferSize)
    (hwords : Text.words bytes ++ lines.flatMap ofLine = tokens.map encode ++ [encode ";"])
    (hsemi : Calls entries ";" (.defining .semicolon) true) (hsteps : Steps entries base tokens steps)
    (hclosed : ∀ draft, run steps (openedDraft before.dictionary name) = some draft →
      draft.markers = [⟨.colon, Header.token (aligned before.dictionary.here)⟩]) :
    Finishes lines opened (Defines entries name steps before) := by
  have hhidden := headedEntry_hidden entries before.dictionary name .colon
  refine hd.finishes (hsteps.cons_of_hidden hhidden) (hopened.base_eq.trans hbase)
    (hopened.exiting_eq.trans hexit) hrd hfits hwords (fun hnone _ _ hroomy => ?_) ?_
  · obtain ⟨_, draft, hsome, _⟩ := hroomy
    cases hnone.symm.trans hsome
  intro draft hdraft laid unread others hlaid hlayered hunread hsub hlast
  have hgrown : before.dictionary.here ≤ (headed before.dictionary name).here :=
    Nat.le_trans (le_aligned _) (Nat.le_add_right _ _)
  have hsame := hopened.trans (hlayered.mono hgrown)
  refine hlaid.finishes_close rfl (hclosed draft hdraft) (hsemi.cons_of_hidden hhidden)
    (hsame.exiting_eq.trans hexit) hunread (fun other hother => hfits other (hsub other hother)) hlast
    (fun hfull _ _ hroomy => ?_) fun hroom middle _ remaining hended hundist hhere hnames hcells hexit hrest hothers hnone => ?_
  · obtain ⟨_, other, hsome, hroom⟩ := hroomy
    cases hdraft.symm.trans hsome
    omega
  · have hcomp : Completed entries name draft before middle :=
      ⟨hended, hsame.trans (hundist.mono (le_aligned _)), hhere, hnames, hcells, hexit⟩
    refine .blank hended.bounded hrest (fun other hother => hfits other (hsub other (hothers other hother))) hnone
      fun after hreadOn => ?_
    exact ⟨⟨hhdr, draft, hdraft, hroom⟩, draft, hdraft,
      hcomp.readOn hreadOn hd.site.start_le hlaid.site.first_le⟩

/-- A text that defines a word does so if there is room, and fails otherwise. -/
theorem Idle.settles {name : String} {before : Machine} (hidle : Idle entries before)
    (hbase : before.base = base) (hexit : before.exiting = false) (htext : DefinitionText name tokens lines)
    (hcolon : Calls entries ":" (.defining .colon) false) (hsemi : Calls entries ";" (.defining .semicolon) true)
    (hsteps : Steps entries base tokens steps)
    (hclosed : HeaderRoom name before.dictionary → ∀ draft,
      run steps (openedDraft before.dictionary name) = some draft →
        draft.markers = [⟨.colon, Header.token (aligned before.dictionary.here)⟩]) :
    Settles lines before (Defines entries name steps before) := by
  obtain ⟨line, rest, words, rfl, hline⟩ := htext.opening
  have hfits := htext.fits line mem_cons_self
  have hnew := ReadOn.withLine before hfits
  have hsame := hnew.undisturbed 0
  have hwords : words ++ rest.flatMap ofLine = tokens.map encode ++ [encode ";"] := by
    have hall := htext.words
    rw [flatMap_cons, hline] at hall
    simpa using hall
  refine Settles.of_finishes hidle.bounded hfits ?_
  have hrd := reading_withLine hidle.bounded hfits
  generalize withLine before (encode line) = m at hnew hsame hrd ⊢
  have hdict : m.dictionary = before.dictionary := by rw [hnew.machine]
  rw [← hdict] at hclosed
  have hfinishes : Finishes rest m (Defines entries name steps m) := by
    refine (hnew.idle hidle).finishes_open (hsame.exiting_eq.trans hexit) hrd hline hcolon
      (fun hfull _ _ hroomy => hfull hroomy.1) fun hhdr opened hd hopened hleft => ?_
    have hname := (nextWord_of_words_cons hline).2.2
    rw [← (nextWord_of_words_cons hname).2.2] at hwords
    exact hd.finishes_definition hhdr hopened (hsame.base_eq.trans hbase) (hsame.exiting_eq.trans hexit)
      hleft (fun other hother => htext.fits other (mem_cons_of_mem _ hother)) hwords hsemi hsteps (hclosed hhdr)
  obtain ⟨bound, hbound⟩ := hfinishes
  exact ⟨bound, fun fuel hfuel more hmore => (hbound fuel hfuel more hmore).readOn hnew⟩

theorem Settles.of_defines
    (hsettles : Settles lines before (Defines entries name steps before)) (hhdr : HeaderRoom name before.dictionary)
    (hdraft : run steps (openedDraft before.dictionary name) = some draft) (hroom : draft.here + 4 ≤ draft.names) :
    Settles lines before fun ended => ∃ after, ended = .ok () after ∧ Completed entries name draft before after := by
  obtain ⟨bound, hbound⟩ := hsettles
  refine ⟨bound, fun fuel hfuel => ?_⟩
  have hended := hbound fuel hfuel
  cases hrun : lines.forM (interpretLine fuel) before with
  | error halt after =>
    rw [hrun] at hended
    exact (hended ⟨hhdr, draft, hdraft, hroom⟩).elim
  | ok answer after =>
    rw [hrun] at hended
    obtain ⟨_, other, hother, hcomp⟩ := hended
    cases hdraft.symm.trans hother
    exact ⟨after, rfl, hcomp⟩

end Definitions

end ThreadedForth
