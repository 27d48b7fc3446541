
import ThreadedForth.Proofs.Session.Start

/-!
# Where branches land

A definition is opened by `:` or `:NONAME`, filled, and closed by `;`. Whatever its control words are, if
all of it is accepted then no structure is left open, and each branch lands on an instruction.
-/

namespace ThreadedForth

open WordM Dictionary Interpreter

/-- The outer interpreter finds the primitive under a word and executes it, and it does not fault. -/
def Executes (prim : Prim) (before after : Machine) : Prop :=
  ∃ fuel token header, before.findHeader? token = .ok (some header) ∧
    Code.ofCell? header.code = some (.prim prim) ∧ (before.Compiling → header.isImmediate = true) ∧
    interpretToken (serve fuel) token before = .ok () after

variable {action : WordM Unit} {after before : Machine} {prim : Prim} {entries : List Header} {token : String}

theorem Executes.perform (hexecutes : Executes prim before after) (hb : before.Bounded)
    (hact : prim.perform = complete action) : ∃ middle, action { before with ip := 0 } = .ok () middle ∧
      (middle.ip = 0 → after = { middle with ip := before.ip }) := by
  obtain ⟨fuel, token, header, hfind, hcode, himm, htoken⟩ := hexecutes
  have hserve : serve fuel (.execute header.xt) before = .ok () after := by
    by_cases hcpl : before.Compiling
    · exact (interpretToken_of_immediate hb hcpl hfind
        (himm hcpl)).symm.trans htoken
    · by_cases honly : header.isCompileOnly = true
      · rw [interpretToken_of_compileOnly hb hcpl hfind honly] at htoken
        cases htoken
      · exact (interpretToken_of_interpreted hb hcpl hfind
          (by simpa using honly)).symm.trans htoken
  obtain ⟨request, middle, hperf, hafter⟩ := of_serve_execute_eq_ok
    (readCell_of_findHeader? hfind) hcode hserve
  rw [hact] at hperf
  obtain ⟨_, _, hdone, hnone⟩ := of_bind_eq_ok hperf
  cases hnone
  exact ⟨middle, hdone, hafter rfl⟩

theorem underway_of_opened {opener : DefiningWord} (hb : before.Bounded)
    (hopener : opener = .colon ∨ opener = .nameless) (hopen : Executes (.defining opener) before after) :
    ∃ draft, Underway (Header.body (Header.token after.dictionary.latest)) draft after := by
  obtain ⟨middle, hact, hafter⟩ := hopen.perform hb rfl
  have hidle : ({ before with ip := 0 } : Machine).Bounded := { hb with }
  obtain ⟨draft, hund, hip⟩ : ∃ draft,
      Underway (Header.body (Header.token middle.dictionary.latest)) draft middle ∧ middle.ip = 0 := by
    rcases hopener with rfl | rfl
    · obtain ⟨draft, hund, hip, _⟩ := underway_of_colon hidle hact
      exact ⟨draft, hund, hip⟩
    · obtain ⟨draft, hund, hip, _⟩ := underway_of_nameless hidle hact
      exact ⟨draft, hund, hip⟩
  rw [hafter hip]
  exact ⟨draft, hund.withIp before.ip⟩

/-! ### A definition that is accepted -/

theorem Calls.executes {compiling : Bool} (hcalls : Calls entries token prim compiling) (hb : before.Bounded)
    (hlex : Lexicon entries before) (hcpl : before.Compiling ↔ compiling = true)
    (hperf : prim.perform = complete action) (hok : action { before with ip := 0 } = .ok () after)
    (hip : after.ip = 0) : Executes prim before { after with ip := before.ip } := by
  have htoken := hcalls.of_ok hb hlex hcpl hperf hok hip 0
  obtain ⟨header, hlook, hcode, hruns⟩ := hcalls
  have hfind := hlex.findHeader?_eq token
  rw [hlook] at hfind
  refine ⟨2, token, header, hfind, hcode, fun hopen => ?_, htoken⟩
  rwa [if_pos (hcpl.1 hopen)] at hruns

theorem Drafting.body_control {first : Nat} {draft next : Draft}
    {word : ControlWord} (hd : Drafting entries first draft before)
    (hcalls : Calls entries token (.control word) true) (hnext : word.draft draft = some next) :
    ∃ after, Drafting entries first next after ∧ ∀ last, Body after last → Body before last := by
  have hadvances := hd.executed hcalls rfl (ControlWord.performs word)
  rw [hnext] at hadvances
  obtain ⟨after, htoken, hafter, _⟩ := hadvances
  obtain ⟨header, hlook, hcode, himm⟩ := hcalls
  have hfind := hd.lexicon.findHeader?_eq token
  rw [hlook] at hfind
  exact ⟨after, hafter, fun last hrest => .token (.structural hfind himm hcode trivial) (htoken 0) hrest⟩

theorem Session.exists_reading {line : String} (hfits : (Utf8.encode line).length ≤ Layout.inputBufferSize) :
    ∃ m, m.Reachable ∧ Holds builtin m ∧ Reading (Utf8.encode line) m := by
  obtain ⟨started, hstart, hholds⟩ := Session.start_eq .empty false
  have hstarted : started.Reachable := stateAfter_of_ok (hstart 0) ▸ .start .empty false 0 false
  have hb := hholds.fresh.idle.bounded
  -- without fuel the line is laid into the buffer, and no word of it is read
  have hline : Session.interpretLine 0 line started =
      .error .outOfFuel (withLine started (Utf8.encode line)) :=
    interpretLine_eq hb.size_eq hfits
  exact ⟨_, stateAfter_of_error hline ▸ hstarted.step (.line 0 line), hholds.readOn (.withLine started hfits),
    reading_withLine hb hfits⟩

theorem Draft.exists_if_then {draft : Draft} (hroom : draft.here + 8 ≤ draft.names)
    (hopen : draft.markers.length < maxMarkers) :
    ∃ inside next, ControlWord.if_.draft draft = some inside ∧ ControlWord.then_.draft inside = some next ∧
      next.here = draft.here + 8 ∧ next.names = draft.names ∧ next.markers = draft.markers ∧
        next.cells draft.here = Cell.ofNat (Prim.thread .zeroBranch).token := by
  have hif : ControlWord.if_.draft draft = some { draft with
      cells := put (put draft.cells draft.here (Cell.ofNat (Prim.thread .zeroBranch).token)) (draft.here + 4) 0
      here := draft.here + 8, markers := ⟨.if_, draft.here + 4⟩ :: draft.markers } := by
    change (draft.emitBranch .zeroBranch).bind (mark ⟨.if_, draft.here + 4⟩) = _
    rw [emitBranch_eq, if_neg (Nat.not_lt.2 hroom), Option.bind_some, mark, if_neg (Nat.not_le.2 hopen)]
  refine ⟨_, _, hif, rfl, rfl, rfl, rfl, ?_⟩
  change put (put (put draft.cells draft.here _) (draft.here + 4) _) (draft.here + 4) _ draft.here = _
  rw [put_of_ne _ _ (by omega), put_of_ne _ _ (by omega), put_self]

/-- However its control words are nested, a definition that is accepted leaves no marker behind, and
each of its branches goes, by an offset that is not zero, to the first cell of one of its
instructions, from the first one up to the `EXIT` that closes it. -/
theorem branches_land {before opened filled closed : Machine} {opener : DefiningWord}
    (hreachable : before.Reachable) (hopener : opener = .colon ∨ opener = .nameless)
    (hopen : Executes (.defining opener) before opened) (hbody : Body opened filled)
    (hclose : Executes (.defining .semicolon) filled closed) :
    let first := Header.body (Header.token opened.dictionary.latest)
    let cells := closed.memory.cellAt
    closed.control.depth = 0 ∧
      ∃ exit, closed.dictionary.here = exit + 4 ∧ Boundary cells first exit ∧
        cells exit = Cell.ofNat (Prim.thread .exit).token ∧
        ∀ address jump, Boundary cells first address → address ≤ exit →
          Prim.ofToken? (cells address) = some (.thread jump) → Instruction.takesOffset jump = true →
          cells (address + 4) ≠ 0 ∧
            ∃ target : Nat, (target : Int) = (address + 4 : Nat) + (cells (address + 4)).toInt ∧
              first ≤ target ∧ target ≤ exit ∧ Boundary cells first target := by
  intro first cells
  obtain ⟨_, hopened⟩ := underway_of_opened hreachable.bounded hopener hopen
  obtain ⟨draft, hfilled⟩ := hopened.body hbody
  obtain ⟨middle, haction, hafter⟩ := hclose.perform hfilled.site.bounded rfl
  obtain ⟨⟨marker, hcolon, hmarkers⟩, hcontrol, hhere, _, hip, hagree, hexit⟩ :=
    (hfilled.withIp 0).site.close hfilled.tracked haction
  cases hafter hip
  have hcoded := hfilled.tracked.coded
  have hmod := hcoded.isAligned
  have hfinish : Boundary cells first draft.here := hcoded.finish.congr hmod hagree (Nat.le_refl _)
  refine ⟨?_, draft.here, hhere, hfinish, hexit, ?_⟩
  · change (middle.control.base - middle.control.top) / 4 = 0
    omega
  · intro address jump hboundary hle hjump htakes
    obtain ⟨hoffset, target, htarget, htargetLe, hdistance⟩ :=
      (hfilled.withIp 0).site.lands_of_close hfilled.tracked haction hboundary hle ⟨jump, hjump, htakes⟩
    exact ⟨hoffset, target, hdistance, htarget.first_le, htargetLe, htarget⟩

/-- The branch of an `IF` that is closed at once. -/
theorem branches_land_if_then : ∃ before opened filled closed : Machine, before.Reachable ∧
    Executes (.defining .colon) before opened ∧ Body opened filled ∧ Executes (.defining .semicolon) filled closed ∧
      closed.control.depth = 0 ∧
        closed.memory.cellAt (Header.body (Header.token opened.dictionary.latest) + 4) ≠ 0 := by
  obtain ⟨before, hreachable, ⟨⟨hidle, _, _, _⟩, hcursors⟩, hreading⟩ := @Session.exists_reading "x" (by decide)
  obtain ⟨hheader, hroom⟩ := @builtin_room "x" (by decide)
  rw [← hcursors] at hheader hroom
  have hresting : before.Compiling ↔ false = true := ⟨fun hopen => (hidle.resting hopen).elim, nofun⟩
  have hready : Idle builtin.1 { before with ip := 0 } :=
    ⟨{ hidle.bounded with }, hidle.lexicon, hidle.closed, hidle.resting⟩
  obtain ⟨opened, hopen, hdrafting, hsame, _⟩ :=
    hready.opens (hreading.withIp 0) (show _ = Utf8.encode "x" :: [] by decide) hheader
  have hexecutes : Executes (.defining .colon) before { opened with ip := before.ip } :=
    (calls_builtin (by decide) (by decide) : Calls builtin.1 ":" (.defining .colon) false).executes
      hidle.bounded hidle.lexicon hresting rfl hopen (by rw [hsame.machine])
  have hhidden : (headedEntry builtin.1 before.dictionary "x" Header.smudged .colon).isVisible = false := by
    change Header.lacks Header.smudged _ = false
    decide
  have hcalls {token : String} {prim : Prim} (hname : sameName prim.name token = true)
      (hflags : Header.lacks prim.entry.flags Header.immediate = false) :
      Calls (headedEntry builtin.1 before.dictionary "x" Header.smudged .colon :: builtin.1) token prim true :=
    Calls.cons_of_hidden (calls_builtin hname hflags) hhidden
  change (openedDraft before.dictionary "x").here + 2 ^ 16 ≤ (openedDraft before.dictionary "x").names at hroom
  change Drafting _ (headed before.dictionary "x").here (openedDraft before.dictionary "x") opened at hdrafting
  obtain ⟨inside, whole, hif, hthen, hlast, hfloor, hmarkers, hbranch⟩ :=
    @Draft.exists_if_then (openedDraft before.dictionary "x") (by omega) (by change 1 < 64; decide)
  obtain ⟨divided, hdivided, hfirst⟩ := (hdrafting.withIp before.ip).body_control
    (hcalls (by decide) (by decide) : Calls _ "if" _ true) hif
  obtain ⟨filled, hfilled, hsecond⟩ := hdivided.body_control
    (hcalls (by decide) (by decide) : Calls _ "then" _ true) hthen
  obtain ⟨closed, hclose, _, hkept, _, _, hcells, _⟩ := (hfilled.withIp 0).closes rfl hmarkers (by omega)
  have hcompiling : filled.Compiling ↔ true = true := ⟨fun _ => rfl, fun _ => hfilled.compiling⟩
  have hexit : Executes (.defining .semicolon) filled { closed with ip := filled.ip } :=
    (hcalls (by decide) (by decide) : Calls _ ";" (.defining .semicolon) true).executes
      hfilled.site.bounded hfilled.lexicon hcompiling rfl hclose (by rw [hkept.machine])
  have hbody := hfirst _ (hsecond _ (.done filled))
  obtain ⟨hdepth, exit, hend, hboundary, _, hlands⟩ := branches_land hreachable (.inl rfl) hexecutes hbody hexit
  have hlatest : Header.body (Header.token opened.dictionary.latest) = (openedDraft before.dictionary "x").here := by
    rw [hdrafting.lexicon.latest_eq]
    rfl
  refine ⟨before, _, filled, _, hreachable, hexecutes, hbody, hexit, hdepth, ?_⟩
  change Memory.cellAt closed.memory _ ≠ 0
  refine (hlands _ .zeroBranch ⟨0, rfl⟩ hboundary.first_le ?_ rfl).1
  change Prim.ofToken? (Memory.cellAt closed.memory (Header.body (Header.token opened.dictionary.latest))) = _
  rw [hlatest, hcells (openedDraft before.dictionary "x").here ⟨Nat.le_refl _, by omega, hdrafting.site.isAligned⟩,
    hbranch, Prim.ofToken?_token]

end ThreadedForth
