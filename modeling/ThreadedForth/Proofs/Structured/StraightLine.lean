
import ThreadedForth.Proofs.Session.Prelude
import ThreadedForth.Proofs.Structured.Execution
import ThreadedForth.Proofs.Structured.Twins

/-!
# Straight-line code

Numbers and data words may be interpreted one after the other, or be put into a definition that is then called. Both
ways do the same actions in the same order, and what else they write is nowhere near the data stack.
-/

namespace ThreadedForth

open WordM Dictionary Layout Utf8 Header DoubleCell Draft List Number
open Interpreter

/-! ### Words of straight-line code -/

/-- A number, or a data word with the token it is called by. -/
inductive Atom where
  | number (value : Number)
  | data (token : Nat) (word : DataWord)

namespace Atom

/-- What it does. -/
def action : Atom → WordM Unit
  | number (.single value) => push value
  | number (.double value) => pushDouble value
  | data _ word => word.perform

/-- The token that is compiled for it, and the primitive behind that. -/
def callee : Atom → Nat × Prim
  | number (.single _) => ((Prim.thread .lit).token, .thread .lit)
  | number (.double _) => ((Prim.thread .twoLit).token, .thread .twoLit)
  | data token word => (token, word.prim)

/-- The cells that are compiled behind the token. -/
def operands : Atom → List Cell
  | number (.single value) => [value]
  | number (.double value) => [low value, high value]
  | data _ _ => []

/-- The cells that are compiled for it. -/
def cells (atom : Atom) : List Cell := Cell.ofNat atom.callee.1 :: atom.operands

/-- What it adds to an open definition. -/
def step : Atom → Draft → Option Draft
  | number value => Draft.number value
  | data token _ => emit (Cell.ofNat token)

/-- What it does to the items of the data stack. -/
def effect : Atom → Items → Except Fault Items
  | number (.single value) => Items.push value
  | number (.double value) => Items.pushDouble value
  | data _ word => word.effect

instance parallel (atom : Atom) : Parallel Twins atom.action := by
  cases atom with
  | number value => cases value <;> unfold action <;> infer_instance
  | data token word => exact word.parallel

theorem denotes (atom : Atom) : Denotes atom.action (StackM.ofEffect atom.effect) := by
  cases atom with
  | number value =>
    cases value with
    | single value => exact denotes_push value
    | double value => exact denotes_pushDouble value
  | data token word => exact word.denotes_perform

end Atom

/-- The code, written down as it is meant. -/
def straight (atoms : List Atom) : WordM Unit := atoms.forM Atom.action

theorem straight_cons (atom : Atom) (atoms : List Atom) :
    straight (atom :: atoms) = (do atom.action; straight atoms) :=
  rfl

/-! ### Compiled -/

theorem Denotes.follows {α : Type} {action : WordM α} {meaning : StackM α} {base before after : Machine} {thread : Thread}
    {answer : α} (hdenotes : Denotes action meaning) (hfol : Follows base thread before)
    (hok : action before = .ok answer after) : ∃ items, Follows base { thread with items } after := by
  have hplays := hdenotes base thread before hfol
  rw [StackM.onThread] at hplays
  cases hmeaning : meaning thread.items with
  | error fault =>
    rw [hmeaning] at hplays
    obtain ⟨other, herror⟩ := hplays
    cases hok.symm.trans herror
  | ok part =>
    rw [hmeaning] at hplays
    obtain ⟨other, hother, hnext⟩ := hplays
    cases hok.symm.trans hother
    exact ⟨part.2, hnext⟩

section Compiled

variable {base m moved : Machine} {thread : Thread} {token : Nat} {prim : Prim} {action : WordM Unit}

/-- One round of the inner interpreter, at the cells of an atom. -/
theorem Atom.round {atom : Atom} {rest : List Cell} (hfol : Follows base thread m) (hpos : 0 < thread.ip)
    (halign : thread.ip % 4 = 0) (hrange : thread.ip + 4 * atom.cells.length ≤ dictionaryEnd)
    (hheld : HoldsItems base.memory thread.ip (atom.cells ++ rest)) (hbacks : Backs base atom.callee.1 atom.callee.2)
    (serve : Serve) (fuel : Nat) : runThread serve (fuel + 1) m =
      (do (liftM atom.action : RunM Unit); runThread serve fuel)
        { m with ip := thread.ip + 4 * atom.cells.length } := by
  have hlen : atom.cells.length = atom.operands.length + 1 := length_cons
  refine hfol.round hpos halign (by omega) hheld.head hbacks ?_ serve fuel
  have hnext := hfol.withIp (thread.ip + 4)
  have hfst := hnext.inlineCell_eq (show (thread.ip + 4) % 4 = 0 by omega)
  cases atom with
  | data token word => exact congrFun word.perform_prim _
  | number value =>
    cases value with
    | single value =>
      have hcell : base.memory.cellAt (thread.ip + 4) = value := hheld.tail.head
      have hinline := hfst hrange
      simp only [hcell] at hinline
      exact bind_of_ok hinline
    | double value =>
      have hlow : base.memory.cellAt (thread.ip + 4) = low value := hheld.tail.head
      have hhigh : base.memory.cellAt (thread.ip + 8) = high value := hheld.tail.tail.head
      have hend : thread.ip + 12 ≤ dictionaryEnd := hrange
      have hinline := hfst (by simp only; omega)
      have hsnd := (hfol.withIp (thread.ip + 8)).inlineCell_eq (by simp only; omega) hend
      simp only [hlow] at hinline
      simp only [hhigh] at hsnd
      refine (bind_of_ok hinline).trans ((bind_of_ok hsnd).trans ?_)
      rw [join_low_high]
      rfl

/-- Compiled code does the actions one after the other, and returns. -/
theorem straight_runThread {atoms : List Atom} {ghost : Machine} {returns : List Cell}
    (hbacks : ∀ atom ∈ atoms, Backs base atom.callee.1 atom.callee.2)
    (hexit : Backs base (Prim.thread .exit).token (.thread .exit)) (hfol : Follows base thread m)
    (hret : thread.returns = Cell.ofNat 0 :: returns) (hpos : 0 < thread.ip) (halign : thread.ip % 4 = 0)
    (hrange : thread.ip + 4 * (atoms.flatMap Atom.cells).length + 4 ≤ dictionaryEnd)
    (hheld : HoldsItems base.memory thread.ip (atoms.flatMap Atom.cells ++ [Cell.ofNat (Prim.thread .exit).token]))
    (htwins : Twins ghost m) : ∃ result, EndAlike ((liftM (straight atoms) : RunM Unit) ghost) result ∧
      (∀ answer after, result = .ok answer after → ∃ items, Follows base ⟨0, items, returns⟩ after) ∧
      ∀ serve fuel, runThread serve (fuel + atoms.length + 2) m = result := by
  induction atoms generalizing thread m ghost with
  | nil =>
    have hplays := ThreadWord.plays_returnToCaller _ (hfol.withIp (thread.ip + 4))
    rw [hret, Op.run_exit (Nat.zero_le _)] at hplays
    obtain ⟨after, hok, hafter⟩ := hplays
    have hround := hfol.round hpos halign (by omega) hheld.head hexit
      (show _ = WordM.complete ThreadWord.returnToCaller _ from rfl)
    refine ⟨.ok () after, ⟨rfl, htwins.trans ?_⟩, fun _ _ hlast => ?_, fun serve fuel => ?_⟩
    · exact ⟨hfol.bounded, hafter.bounded, thread.items, hfol.items, hafter.items⟩
    · cases hlast
      exact ⟨_, hafter⟩
    · rw [hround, bind_of_ok (run_of_ok hok)]
      exact runThread_of_idle hafter.ip_eq
  | cons atom atoms ih =>
    rw [flatMap_cons, append_assoc] at hheld
    rw [flatMap_cons, length_append] at hrange
    have hround := Atom.round hfol hpos halign (by omega) hheld (hbacks atom mem_cons_self)
    generalize hmoved : { m with ip := thread.ip + 4 * atom.cells.length } = moved at hround
    have hpoint : Follows base { thread with ip := thread.ip + 4 * atom.cells.length } moved :=
      hmoved ▸ hfol.withIp _
    have hends := atom.parallel.parallel ghost moved (hmoved ▸ htwins.withIp _)
    rw [straight_cons]
    rcases hends.cases with ⟨_, _, other, hghost, hact, hnext⟩ | ⟨fault, _, other, hghost, hact, hnext⟩
    · obtain ⟨items, hother⟩ := atom.denotes.follows hpoint hact
      obtain ⟨result, halike, hended, hrun⟩ := ih (fun other hmember => hbacks other (mem_cons_of_mem _ hmember)) hother
        hret (by simp only; omega) (by simp only; omega) (by simp only; omega) hheld.of_append hnext
      refine ⟨result, ?_, hended, fun serve fuel => ?_⟩
      · rw [run_bind_of_ok hghost]
        exact halike
      · exact (hround serve _).trans ((bind_of_ok (run_of_ok hact)).trans (hrun serve fuel))
    · refine ⟨.error (.fault fault) other, ?_, (fun _ _ hlast => nomatch hlast), fun serve fuel => ?_⟩
      · rw [run_of_error (bind_of_error hghost)]
        exact ⟨rfl, hnext⟩
      · exact (hround serve _).trans (bind_of_error (run_of_error hact))

end Compiled

/-! ### Words in a text -/

/-- What a word of the text stands for. -/
def Atom.Reads (entries : List Header) (base : Except Fault Nat) (token : String) : Atom → Prop
  | number value => lookup entries token = none ∧
      ∃ radix pointCount, base = .ok radix ∧ read? radix token = some (value, pointCount)
  | data address word => ∃ header, lookup entries token = some header ∧ header.xt = address ∧
      Code.ofCell? header.code = some (.prim word.prim) ∧ header.isImmediate = false ∧ header.isCompileOnly = false

section Texts

variable {entries : List Header} {base : Except Fault Nat} {token : String} {tokens : List String} {atom : Atom}
  {atoms : List Atom} {m : Machine}

theorem Atom.Reads.stepOf?_eq (hreads : atom.Reads entries base token) : stepOf? entries base token = some atom.step := by
  cases atom with
  | number value =>
    obtain ⟨hlook, radix, pointCount, rfl, hread⟩ := hreads
    rw [stepOf?, hlook, stepFor?, hread]
    rfl
  | data addr word =>
    obtain ⟨header, hlook, rfl, _, himm, _⟩ := hreads
    rw [stepOf?, hlook, stepFor?, himm]
    rfl

theorem Atom.steps (hreads : List.Forall₂ (Atom.Reads entries base) tokens atoms) :
    Steps entries base tokens (atoms.map Atom.step) := by
  induction hreads with
  | nil => exact .nil
  | cons hfst _ ih => exact .cons hfst.stepOf?_eq ih

variable {draft : Draft} {after before ghost now : Machine} {lines : List String} {markers : List Marker}
  {name : String} {values returns : List Cell} {items : Items}

theorem Atom.does_step (atom : Atom) (hroom : draft.here + 4 * atom.cells.length ≤ draft.names) :
    Does True (atom.step draft) (Chunk atom.cells draft.markers draft) := by
  cases atom with
  | data addr word => exact does_emit _ fun _ => hroom
  | number value =>
    cases value with
    | single value => exact does_number (.single value) fun _ => hroom
    | double value => exact does_number (.double value) fun _ => hroom

theorem Draft.run_atoms {draft : Draft} (hroom : draft.here + 4 * (atoms.flatMap Atom.cells).length ≤ draft.names) :
    ∃ next, run (atoms.map Atom.step) draft = some next ∧
      Chunk (atoms.flatMap Atom.cells) draft.markers draft next := by
  induction atoms generalizing draft with
  | nil => exact ⟨draft, rfl, draft.chunk_markers draft.markers⟩
  | cons atom atoms ih =>
    rw [flatMap_cons, length_append] at hroom
    have hdoes := atom.does_step (show draft.here + 4 * atom.cells.length ≤ draft.names by omega)
    have hrun : run ((atom :: atoms).map Atom.step) draft =
        (atom.step draft).bind (run (atoms.map Atom.step)) := rfl
    cases hstep : atom.step draft with
    | none =>
      rw [hstep] at hdoes
      exact (hdoes trivial).elim
    | some middle =>
      rw [hstep] at hdoes hrun
      have hhere := hdoes.here_eq
      have hnames := hdoes.names_eq
      obtain ⟨next, hnext, hchunk⟩ := @ih middle (by omega)
      rw [hdoes.markers_eq] at hchunk
      exact ⟨next, hrun.trans hnext, Chunk.append hdoes hchunk⟩

theorem Draft.run_number_emit {draft : Draft} (value : Cell) (token : Nat) (hroom : draft.here + 12 ≤ draft.names) :
    ∃ next, run [Draft.number (.single value), emit (Cell.ofNat token)] draft = some next ∧
      Chunk [Cell.ofNat (Prim.thread .lit).token, value, Cell.ofNat token] draft.markers draft next :=
  -- The token alone is laid: which word it names does not matter.
  @run_atoms [.number (.single value), .data token (.cell .slash)] draft hroom

/-- The dictionary has a header of the primitive, with this token. -/
def Stands (entries : List Header) (token : Nat) (prim : Prim) : Prop :=
  ∃ entry ∈ entries, entry.xt = token ∧ Code.ofCell? entry.code = some (.prim prim)

theorem Stands.cons {token : Nat} {prim : Prim} (hstands : Stands entries token prim) (entry : Header) :
    Stands (entry :: entries) token prim := by
  obtain ⟨other, hother, hrest⟩ := hstands
  exact ⟨other, mem_cons_of_mem entry hother, hrest⟩

theorem Stands.backs {token : Nat} {prim : Prim} (hstands : Stands entries token prim) (hlex : Lexicon entries m) :
    Backs m token prim := by
  obtain ⟨entry, hentry, rfl, hcode⟩ := hstands
  obtain ⟨_, _, _, hheld⟩ := hlex.held entry hentry
  have halign := hheld.isAligned
  have hbelow := (hlex.below entry hentry).2
  have hhere := hlex.here_le (ne_nil_of_mem hentry)
  have hnames := hlex.names_le
  rw [size] at hbelow
  refine ⟨by rw [xt, Header.token]; omega, by rw [xt, Header.token]; omega, ?_⟩
  rw [hlex.cellAt_eq hentry]
  exact hcode

theorem Undisturbed.twins {limit : Nat} (hundist : Undisturbed limit before after)
    (hbefore : before.Bounded) (hafter : after.Bounded) : Twins before after := by
  refine .of_sameOutside hbefore hafter (by rw [hundist.machine]) hundist.memory fun addr hin hdata => ?_
  have horder := order
  have hlow := hdata.1
  have hhigh := hin.2.1
  omega

theorem ReadOn.twins (hreadOn : ReadOn before after) (hb : before.Bounded) : Twins before after :=
  (hreadOn.undisturbed 0).twins hb (hreadOn.bounded hb)

/-! ### Interpreted -/

/-- Numbers and data words write to the stacks, and to the cell that says how a number was written. -/
def NumberArea (address : Nat) : Prop :=
  (Region.mk pointCount inputBuffer).Holds address ∨ StackArea address

/-- What the interpreter goes by is as it was. -/
structure Resumes (entries : List Header) (before after : Machine) : Prop where
  idle : Idle entries after
  machine : after = { before with
    memory := after.memory, data := after.data, returns := after.returns, ip := after.ip }
  memory : Memory.SameOutside NumberArea before.memory after.memory

theorem numberArea_above {addr : Nat} (hin : NumberArea addr) : pointCount ≤ addr := by
  rcases hin with hin | hin
  · exact hin.1
  · have habove := Follows.above addr hin
    have horder := order
    omega

namespace Resumes

variable {before middle after : Machine}

theorem trans (hfst : Resumes entries before middle) (hsnd : Resumes entries middle after) :
    Resumes entries before after :=
  ⟨hsnd.idle, by rw [hsnd.machine, hfst.machine], hfst.memory.trans hsnd.memory⟩

theorem withIp (hidle : Idle entries m) (ip : Nat) : Resumes entries m { m with ip } :=
  ⟨hidle.withIp ip, rfl, .refl _ _⟩

theorem note (hidle : Idle entries m) (pointCount : Cell) :
    Resumes entries m { m with memory := m.memory.setCell Layout.pointCount pointCount } :=
  ⟨(ReadOn.note m pointCount).idle hidle, rfl, (Memory.sameOutside_setCell _ _ _).mono fun _ => .inl⟩

theorem of_denotes {action : WordM Unit} {meaning : StackM Unit} {answer : Unit} (hdenotes : Denotes action meaning)
    (hidle : Idle entries before) (hok : action before = .ok answer after) :
    after.ip = before.ip ∧ Resumes entries before after := by
  obtain ⟨items, returns, hrefl⟩ := Follows.exists_refl hidle.bounded
  obtain ⟨left, hfol⟩ := hdenotes.follows hrefl hok
  exact ⟨hfol.ip_eq, hfol.idle hidle, by rw [hfol.machine_eq], hfol.memory.mono fun _ => .inr⟩

theorem exiting_eq (hresumes : Resumes entries before after) : after.exiting = before.exiting := by
  rw [hresumes.machine]

theorem base_eq (hresumes : Resumes entries before after) : after.base = before.base := by
  have horder := order
  rw [Machine.base, Machine.base, hresumes.memory.readCell fun other _ hlast hin => ?_]
  have habove := numberArea_above hin
  omega

theorem reading {bytes : List UInt8} (hresumes : Resumes entries before after) (hb : before.Bounded)
    (hrd : Reading bytes before) : Reading bytes after := by
  refine hrd.frame hb (by rw [hresumes.machine]) hresumes.memory fun addr hin hsource => ?_
  have horder := order
  rcases hin with hin | hin
  · rcases hsource with hcell | hbuffer
    · rw [Region.holds_mk] at hin hcell
      omega
    · rw [Region.holds_mk] at hin hbuffer
      omega
  · have habove := Follows.above addr hin
    rcases hsource with ⟨-, hlast⟩ | ⟨-, hlast⟩ <;> (simp only at hlast; omega)

end Resumes

/-- A word that does an action on the data stack once it has been read does it wherever it is called. -/
theorem Calls.interprets {action : WordM Unit} {meaning : StackM Unit} {prim : Prim} {start : Machine} [Parallel Twins action]
    (hdenotes : Denotes action meaning) (hcalls : Calls entries token prim false) (hidle : Idle entries m)
    (hstart : Idle entries start) (hip : start.ip = 0) (htwins : Twins m start)
    (hperf : prim.perform { m with ip := 0 } = WordM.complete action start) :
    ∃ result, (∀ fuel, interpretToken (serve (fuel + 2)) token m = result) ∧
      EndAlike ((liftM action : RunM Unit) m) result ∧
      ∀ answer after, result = .ok answer after → after.ip = m.ip ∧ Resumes entries start after := by
  obtain ⟨addr, cell, hread, hcode, htoken⟩ := hcalls.interpretToken_eq hidle.bounded hidle.lexicon
    hidle.compiling_iff
  have hends := (‹Parallel Twins action›.parallel m start htwins).run.endAlike
  refine ⟨putBack m.ip ((liftM action : RunM Unit) start), fun fuel => ?_, hends.putBack m.ip, fun answer after hafter => ?_⟩
  · rw [htoken]
    cases hact : action start with
    | ok answer after =>
      have hkept := (Resumes.of_denotes hdenotes hstart hact).1
      rw [serve_execute_of_ok hread hcode (hperf.trans (bind_of_ok hact)) (hkept.trans hip), run_of_ok hact]
      rfl
    | error fault after =>
      rw [serve_execute_of_error hread hcode (hperf.trans (bind_of_error hact)), run_of_error hact]
      rfl
  · cases hact : action start with
    | ok answer last =>
      rw [run_of_ok hact] at hafter
      cases hafter
      have hresumes := (Resumes.of_denotes hdenotes hstart hact).2
      exact ⟨rfl, hresumes.trans (.withIp hresumes.idle _)⟩
    | error fault last =>
      rw [run_of_error hact] at hafter
      cases hafter

/-- A word of the text is read and does its action. -/
theorem Atom.Reads.interprets (hreads : atom.Reads entries base token) (hidle : Idle entries m)
    (hbase : m.base = base) :
    ∃ result, (∀ fuel, interpretToken (serve (fuel + 2)) token m = result) ∧
      EndAlike ((liftM atom.action : RunM Unit) m) result ∧
      ∀ answer after, result = .ok answer after → after.ip = m.ip ∧ Resumes entries m after := by
  cases atom with
  | number value =>
    obtain ⟨hlook, radix, pointCount, rfl, hread⟩ := hreads
    have hnoted := Resumes.note hidle pointCount
    have htwins := (ReadOn.note m pointCount).twins hidle.bounded
    have haccept : acceptNumber false value = (Atom.number value).action := by
      cases value <;> rfl
    have htoken (fuel : Nat) :=
      hidle.interpretToken_of_number hlook hbase hread (serve (fuel + 2))
    rw [haccept] at htoken
    refine ⟨_, htoken, ((Atom.number value).parallel.parallel _ _ htwins).run.endAlike, fun answer after hafter => ?_⟩
    have hacted := Resumes.of_denotes (Atom.number value).denotes hnoted.idle (of_run_eq_ok hafter)
    exact ⟨hacted.1, hnoted.trans hacted.2⟩
  | data addr word =>
    obtain ⟨header, hlook, rfl, hcode, _, honly⟩ := hreads
    have hstart := Resumes.withIp hidle 0
    obtain ⟨result, htoken, hends, hresumes⟩ := Calls.interprets word.denotes_perform ⟨header, hlook, hcode, honly⟩
      hidle hstart.idle rfl ((Twins.refl hidle.bounded).withIp 0) (by rw [word.perform_prim])
    refine ⟨result, htoken, hends, fun answer after hafter => ?_⟩
    obtain ⟨hip, hafter⟩ := hresumes answer after hafter
    exact ⟨hip, hstart.trans hafter⟩

/-- The words of a text do their actions one after the other. -/
theorem Idle.finishes_straight {bytes : List UInt8}
    (hreads : List.Forall₂ (Atom.Reads entries base) tokens atoms) (hidle : Idle entries m)
    (hbase : m.base = base) (hexit : m.exiting = false) (hrd : Reading bytes m)
    (hfits : ∀ line ∈ lines, (encode line).length ≤ inputBufferSize)
    (hwords : Text.words bytes ++ lines.flatMap Text.ofLine = tokens.map encode) (htwins : Twins ghost m) :
    Finishes lines m (EndAlike ((liftM (straight atoms) : RunM Unit) ghost)) := by
  induction hreads generalizing ghost m bytes lines with
  | nil =>
    exact .blank hidle.bounded hrd hfits hwords fun after hreadOn =>
      ⟨rfl, htwins.trans (hreadOn.twins hidle.bounded)⟩
  | @cons token atom tokens atoms hfst _ ih =>
    refine .seek hidle.bounded hrd hfits hwords fun found toIn left remaining hreadOn hnext hleft hsub hrest => ?_
    have hmoved := hreadOn.trans (.readTo found toIn)
    have hready := hmoved.idle hidle
    have hsame := hmoved.undisturbed 0
    obtain ⟨result, htoken, halike, hresumes⟩ := hfst.interprets hready (hsame.base_eq.trans hbase)
    have hghost := (atom.parallel.parallel _ _ (htwins.trans (hmoved.twins hidle.bounded))).run.endAlike.trans halike
    rw [straight_cons]
    cases hact : atom.action ghost with
    | error fault after =>
      rw [run_of_error hact] at hghost
      cases result with
      | ok answer other => exact hghost.elim
      | error halt other =>
        refine .stop 2 hnext fun fuel hfuel => ?_
        obtain ⟨fuel, rfl⟩ := Nat.exists_eq_add_of_le' hfuel
        exact ⟨halt, other, htoken fuel, by rw [run_of_error (bind_of_error hact)]; exact hghost⟩
    | ok answer after =>
      rw [run_of_ok hact] at hghost
      cases result with
      | error halt other => exact hghost.elim
      | ok reply other =>
        have hother := (hresumes _ _ rfl).2
        have hstill := hother.exiting_eq.trans (hsame.exiting_eq.trans hexit)
        rw [run_bind_of_ok hact]
        have hradix := hother.base_eq.trans (hsame.base_eq.trans hbase)
        exact .next hnext htoken hstill (ih hother.idle hradix hstill (hother.reading hready.bounded hleft)
          (fun line hline => hfits line (hsub line hline)) hrest hghost.2)

/-! ### Called -/

theorem Settles.of_reading {post : EStateM.Result Halt Machine Unit → Prop} (hb : m.Bounded) (hlines : lines ≠ [])
    (hfits : ∀ line ∈ lines, (encode line).length ≤ inputBufferSize)
    (hrest : ∀ now bytes remaining, ReadOn m now → Reading bytes now → (∀ line ∈ remaining, line ∈ lines) →
      Text.words bytes ++ remaining.flatMap Text.ofLine = lines.flatMap Text.ofLine → Finishes remaining now post) :
    Settles lines m post := by
  cases lines with
  | nil => exact (hlines rfl).elim
  | cons line lines =>
    have hline := hfits line mem_cons_self
    exact .of_finishes hb hline (hrest _ _ lines (.withLine m hline)
      (reading_withLine hb hline) (fun other => mem_cons_of_mem line) rfl)

theorem Completed.holdsItems (hcomp : Completed entries name draft before after)
    (hchunk : Chunk values markers (openedDraft before.dictionary name) draft) :
    HoldsItems after.memory (headed before.dictionary name).here
      (values ++ [Cell.ofNat (Prim.thread .exit).token]) := by
  have halign := aligned_mod before.dictionary.here
  have hhere : draft.here = (headed before.dictionary name).here + 4 * values.length := hchunk.here_eq
  have hfst : (headed before.dictionary name).here = aligned before.dictionary.here + 20 := rfl
  intro place value hplace
  rw [getElem?_append] at hplace
  split at hplace
  · next hins =>
    rw [hcomp.cells _ ⟨by omega, by omega, by omega⟩]
    exact hchunk.held place value hplace
  · next houtside =>
    obtain ⟨hlast, hvalue⟩ := List.getElem?_eq_some_iff.1 hplace
    rw [List.length_singleton] at hlast
    have hend : place = values.length := by omega
    subst hend
    simp only [Nat.sub_self, getElem_cons_zero] at hvalue
    rw [← hvalue, ← hhere]
    exact hcomp.exit

theorem Completed.interpretToken_eq (hcomp : Completed entries name draft before after) (serve : Serve) :
    interpretToken serve name after =
      serve (.execute (Header.token (aligned before.dictionary.here))) after := by
  have hflags : (headedEntry entries before.dictionary name smudged .colon).revealed.flags = 0 := by
    change smudged &&& ~~~smudged = 0
    decide
  have hvisible : (headedEntry entries before.dictionary name smudged .colon).revealed.isVisible = true := by
    rw [isVisible, hflags]
    decide
  have honly : (headedEntry entries before.dictionary name smudged .colon).revealed.isCompileOnly = false := by
    rw [isCompileOnly, hflags]
    decide
  have hfind := hcomp.idle.lexicon.findHeader?_eq name
  rw [lookup_cons_of_name hvisible ((sameName_iff name name).2 rfl)] at hfind
  exact interpretToken_of_interpreted hcomp.idle.bounded hcomp.idle.resting hfind honly

section

variable (hcomp : Completed entries name draft before now)

include hcomp

theorem Completed.entered (hrefl : Follows now ⟨now.ip, items, returns⟩ now)
    (hfree : returns.length < returnCells) :
    ∃ entered, Follows now ⟨(headed before.dictionary name).here, items, Cell.ofNat 0 :: returns⟩ entered ∧
      ∀ fuel, serve (fuel + 1) (.execute (Header.token (aligned before.dictionary.here))) now =
        putBack now.ip (runThread (serve fuel) fuel entered) := by
  have hlex := hcomp.idle.lexicon
  have halign := aligned_mod before.dictionary.here
  have hbelow : aligned before.dictionary.here + 20 ≤ now.dictionary.here := (hlex.below _ mem_cons_self).2
  have hhere := hlex.here_le (cons_ne_nil _ _)
  have hnames := hlex.names_le
  have hcell := hlex.cellAt_eq mem_cons_self
  have htoken : Header.token (aligned before.dictionary.here) = aligned before.dictionary.here + 16 := rfl
  have hsound : (Op.call (Header.token (aligned before.dictionary.here))).Sound now.memory.cellAt :=
    ⟨by omega, by omega, hcell⟩
  rcases hrefl.execute_eq hsound with ⟨hfull, _⟩ | ⟨entered, hent, hserve⟩
  · omega
  refine ⟨entered, hent, fun fuel => ?_⟩
  rw [hserve]
  cases runThread (serve fuel) fuel entered <;> rfl

theorem Completed.enters
    (hchunk : Chunk values markers (openedDraft before.dictionary name) draft) (hroom : draft.here + 4 ≤ draft.names)
    (hrefl : Follows now ⟨now.ip, items, returns⟩ now) (hfree : returns.length < returnCells) :
    ∃ first entered, 0 < first ∧ first % 4 = 0 ∧ first + 4 * values.length + 4 ≤ dictionaryEnd ∧
      HoldsItems now.memory first (values ++ [Cell.ofNat (Prim.thread .exit).token]) ∧
      Follows now ⟨first, items, Cell.ofNat 0 :: returns⟩ entered ∧
      ∀ fuel, serve (fuel + 1) (.execute (Header.token (aligned before.dictionary.here))) now =
        putBack now.ip (runThread (serve fuel) fuel entered) := by
  have hstart := hcomp.start_le
  have halign := aligned_mod before.dictionary.here
  have hfst : (headed before.dictionary name).here = aligned before.dictionary.here + 20 := rfl
  have hhere : draft.here = (headed before.dictionary name).here + 4 * values.length := hchunk.here_eq
  have hnames : now.dictionary.names ≤ dictionaryEnd := hcomp.idle.bounded.dictionary.names_le
  rw [hcomp.names_eq] at hnames
  obtain ⟨entered, hent, hserve⟩ := hcomp.entered hrefl hfree
  exact ⟨_, entered, by omega, by omega, by omega, hcomp.holdsItems hchunk, hent, hserve⟩

/-- The new word is executed. -/
theorem Completed.executes
    (hchunk : Chunk (atoms.flatMap Atom.cells) markers (openedDraft before.dictionary name) draft)
    (hroom : draft.here + 4 ≤ draft.names) (hatoms : ∀ atom ∈ atoms, Stands entries atom.callee.1 atom.callee.2)
    (hexit : Stands entries (Prim.thread .exit).token (.thread .exit))
    (hrefl : Follows now ⟨now.ip, items, returns⟩ now) (hfree : returns.length < returnCells)
    (htwins : Twins ghost now) :
    ∃ result, EndAlike ((liftM (straight atoms) : RunM Unit) ghost) result ∧
      (∀ answer after, result = .ok answer after → ∃ items, Follows now ⟨now.ip, items, returns⟩ after) ∧
      ∀ fuel, atoms.length + 3 ≤ fuel →
        serve fuel (.execute (Header.token (aligned before.dictionary.here))) now = result := by
  have hbacks {token : Nat} {prim : Prim} (hstands : Stands entries token prim) : Backs now token prim :=
    (hstands.cons _).backs hcomp.idle.lexicon
  obtain ⟨first, entered, hpos, halign, hrange, hheld, hent, hserve⟩ :=
    hcomp.enters hchunk hroom hrefl hfree
  have hins : Twins now entered := ⟨hrefl.bounded, hent.bounded, items, hrefl.items, hent.items⟩
  obtain ⟨result, halike, hended, hrun⟩ := straight_runThread (fun atom hatom => hbacks (hatoms atom hatom))
    (hbacks hexit) hent rfl hpos halign hrange hheld (htwins.trans hins)
  refine ⟨putBack now.ip result, halike.putBack now.ip, ?_, ?_⟩
  · intro answer after hafter
    cases result with
    | error halt last => cases hafter
    | ok reply last =>
      cases hafter
      obtain ⟨left, hlast⟩ := hended _ _ rfl
      exact ⟨left, hlast.withIp now.ip⟩
  · intro fuel hfuel
    obtain ⟨fuel, rfl⟩ := Nat.exists_eq_add_of_le' hfuel
    have hres := hrun (serve (fuel + atoms.length + 2)) fuel
    rw [← Nat.add_assoc, hserve, hres]

end

/-- The new word is called. -/
theorem Completed.finishes_call {bytes : List UInt8} {post : EStateM.Result Halt Machine Unit → Prop} (least : Nat)
    (hcomp : Completed entries name draft before now) (hgrow : (headed before.dictionary name).here ≤ draft.here)
    (hrd : Reading bytes now) (hfits : ∀ line ∈ lines, (encode line).length ≤ inputBufferSize)
    (hwords : Text.words bytes ++ lines.flatMap Text.ofLine = [encode name])
    (hrun : ∀ ready, ReadOn now ready → Completed entries name draft before ready → ∃ result,
      (∀ fuel, least ≤ fuel → serve fuel (.execute (Header.token (aligned before.dictionary.here))) ready = result) ∧
        match result with
        | .error halt last => post (.error halt last)
        | .ok _ last => last.Bounded ∧ last.exiting = false ∧ (∀ left, Reading left ready → Reading left last) ∧
            ∀ ended, ReadOn last ended → post (.ok () ended)) : Finishes lines now post := by
  refine .seek hcomp.idle.bounded hrd hfits hwords fun found toIn left remaining hreadOn hnext hleft hsub hrest => ?_
  have hmoved := hreadOn.trans (.readTo found toIn)
  have hstands := hcomp.readOn hmoved (Nat.le_trans hcomp.start_le (Nat.le_add_right _ size)) hgrow
  obtain ⟨result, hserve, hended⟩ := hrun _ hmoved hstands
  have htoken (fuel : Nat) (hfuel : least ≤ fuel) : interpretToken (serve fuel) name (found.readTo toIn) = result :=
    (hstands.interpretToken_eq _).trans (hserve fuel hfuel)
  cases result with
  | error halt last => exact .stop _ hnext fun fuel hfuel => ⟨halt, last, htoken fuel hfuel, hended⟩
  | ok answer last =>
    obtain ⟨hb, hstill, hkept, hpost⟩ := hended
    exact .step _ hnext htoken hstill (.blank hb (hkept left hleft) (fun line hline => hfits line (hsub line hline))
      hrest hpost)

theorem Completed.settles_call {calling : List String} (hcomp : Completed entries name draft before after)
    (hchunk : Chunk (atoms.flatMap Atom.cells) markers (openedDraft before.dictionary name) draft)
    (hroom : draft.here + 4 ≤ draft.names) (hatoms : ∀ atom ∈ atoms, Stands entries atom.callee.1 atom.callee.2)
    (hexit : Stands entries (Prim.thread .exit).token (.thread .exit)) (hexiting : after.exiting = false)
    (hfree : after.returns.limit + 4 ≤ after.returns.top)
    (hfits : ∀ line ∈ calling, (encode line).length ≤ inputBufferSize)
    (hcalling : calling.flatMap Text.ofLine = [encode name]) (htwins : Twins ghost after) :
    Settles calling after (EndAlike ((liftM (straight atoms) : RunM Unit) ghost)) := by
  have hlines : calling ≠ [] := by
    rintro rfl
    cases hcalling
  have hgrow : (headed before.dictionary name).here ≤ draft.here := by
    rw [hchunk.here_eq]
    exact Nat.le_add_right _ _
  refine .of_reading hcomp.idle.bounded hlines hfits fun line bytes others hline hrd hothers hwords => ?_
  have hcalled := hcomp.readOn hline (Nat.le_trans hcomp.start_le (Nat.le_add_right _ size)) hgrow
  refine hcalled.finishes_call (atoms.length + 3) hgrow hrd (fun other hother => hfits other (hothers other hother))
    (hwords.trans hcalling) fun ready hreadOn hstands => ?_
  have hmoved := hline.trans hreadOn
  obtain ⟨items, returns, hrefl⟩ := Follows.exists_refl hstands.idle.bounded
  have hspace : returns.length < returnCells := by
    have hroom := hrefl.returns_room
    rw [hmoved.machine] at hroom
    simp only at hroom
    omega
  obtain ⟨result, halike, hended, hserve⟩ := hstands.executes hchunk hroom hatoms hexit hrefl hspace
    (htwins.trans (hmoved.twins hcomp.idle.bounded))
  refine ⟨result, hserve, ?_⟩
  cases result with
  | error halt last => exact halike
  | ok answer last =>
    obtain ⟨items, hlast⟩ := hended _ _ rfl
    refine ⟨hlast.bounded, ?_, fun left => hlast.reading hstands.idle.bounded,
      fun ended hafter => halike.trans ⟨rfl, hafter.twins hlast.bounded⟩⟩
    rw [hlast.machine_eq, hmoved.machine]
    exact hexiting

end Texts

/-! ### Both ways -/

/-- The machine rests, and what it takes to define and call a word is there: `:` and `;`, the primitives that are compiled
for numbers and for the end of a definition, and a free cell on the return stack. -/
structure CanDefine (entries : List Header) (m : Machine) : Prop where
  idle : Idle entries m
  exiting_eq : m.exiting = false
  free : m.returns.limit + 4 ≤ m.returns.top
  colon : Calls entries ":" (.defining .colon) false
  semicolon : Calls entries ";" (.defining .semicolon) true
  stands : ∀ word ∈ [ThreadWord.exit, .lit, .twoLit], Stands entries (Prim.thread word).token (.thread word)

/-- There is room for the header, the code and the return at its end. -/
structure CodeFits (name : String) (atoms : List Atom) (dictionary : Dictionary) : Prop where
  header : HeaderRoom name dictionary
  code : (headed dictionary name).here + 4 * (atoms.flatMap Atom.cells).length + 4 ≤ (headed dictionary name).names

/-- The words of some lines, each of which fits into the input buffer. -/
structure Spelled (tokens : List String) (lines : List String) : Prop where
  fits : ∀ line ∈ lines, (encode line).length ≤ inputBufferSize
  words : lines.flatMap Text.ofLine = tokens.map encode

section Agreement

variable {entries : List Header} {tokens : List String} {atoms : List Atom} {m : Machine} {name : String}

section

variable (hcan : CanDefine entries m)

include hcan

theorem CanDefine.stands_atom {atom : Atom} {token : String}
    (hreads : atom.Reads entries m.base token) : Stands entries atom.callee.1 atom.callee.2 := by
  cases atom with
  | data addr word =>
    obtain ⟨header, hlook, hxt, hcode, _⟩ := hreads
    exact ⟨header, mem_of_lookup hlook, hxt, hcode⟩
  | number value => cases value <;> exact hcan.stands _ (by decide)

theorem CanDefine.stands_atoms (hreads : List.Forall₂ (Atom.Reads entries m.base) tokens atoms) :
    ∀ atom ∈ atoms, Stands entries atom.callee.1 atom.callee.2 := by
  induction hreads with
  | nil => exact fun _ hnone => nomatch hnone
  | cons hfst _ ih => exact forall_mem_cons.2 ⟨hcan.stands_atom hfst, ih⟩

theorem CanDefine.settles_direct {direct : List String} (hreads : List.Forall₂ (Atom.Reads entries m.base) tokens atoms)
    (hdirect : Spelled tokens direct) : Settles direct m (EndAlike ((liftM (straight atoms) : RunM Unit) m)) := by
  by_cases hlines : direct = []
  · subst hlines
    have hnone : tokens = [] := map_eq_nil_iff.1 hdirect.words.symm
    subst hnone
    cases hreads
    exact ⟨0, fun _ _ => ⟨rfl, .refl hcan.idle.bounded⟩⟩
  · refine .of_reading hcan.idle.bounded hlines hdirect.fits fun now bytes others hline hrd hothers hwords => ?_
    have hsame := hline.undisturbed 0
    exact (hline.idle hcan.idle).finishes_straight hreads hsame.base_eq (hsame.exiting_eq.trans hcan.exiting_eq) hrd
      (fun other hother => hdirect.fits other (hothers other hother)) (hwords.trans hdirect.words)
      (hline.twins hcan.idle.bounded)

theorem CanDefine.settles_called {defining calling : List String}
    (hreads : List.Forall₂ (Atom.Reads entries m.base) tokens atoms)
    (hdefining : DefinitionText name tokens defining) (hcalling : Spelled [name] calling)
    (hroom : CodeFits name atoms m.dictionary) :
    Settles (defining ++ calling) m (EndAlike ((liftM (straight atoms) : RunM Unit) m)) := by
  obtain ⟨draft, hdraft, hchunk⟩ := @run_atoms atoms (openedDraft m.dictionary name)
    (Nat.le_trans (Nat.le_add_right _ 4) hroom.code)
  have hend : draft.here + 4 ≤ draft.names := by
    rw [hchunk.here_eq, hchunk.names_eq]
    exact hroom.code
  have hsettles := hcan.idle.settles rfl hcan.exiting_eq hdefining hcan.colon hcan.semicolon (Atom.steps hreads)
    fun _ other hother => by
      cases hdraft.symm.trans hother
      exact hchunk.markers_eq
  refine (hsettles.of_defines hroom.header hdraft hend).append fun after hcomp => ?_
  have hsame := hcomp.undisturbed
  refine hcomp.settles_call hchunk hend (hcan.stands_atoms hreads) (hcan.stands _ mem_cons_self)
    (hsame.exiting_eq.trans hcan.exiting_eq) ?_ hcalling.fits hcalling.words
    (hsame.twins hcan.idle.bounded hcomp.idle.bounded)
  rw [hsame.machine]
  exact hcan.free

end

/-- A run that was not cut off. -/
def Finished (result : EStateM.Result Halt Machine Unit) : Prop := ∀ after, result ≠ .error .outOfFuel after

end Agreement

theorem stands_builtin (prim : Prim) : Stands builtin.1 prim.token prim := by
  obtain ⟨entry, hentry, henters⟩ := builtin_entries.2 prim
  exact ⟨entry, hentry, henters.token_eq, by rw [henters.code_eq, Code.ofCell?_toCell]⟩

theorem Holds.canDefine {m : Machine} (hholds : Holds builtin m) : CanDefine builtin.1 m := by
  refine ⟨hholds.fresh.idle, hholds.fresh.exiting_eq, ?_, calls_builtin (by decide) (by decide),
    calls_builtin (by decide) (by decide), fun word _ => stands_builtin (.thread word)⟩
  have hlimit := hholds.fresh.idle.bounded.returns.limit_eq
  have hbase := hholds.fresh.idle.bounded.returns.base_eq
  have hregion : returnRegion.start + 4 ≤ returnRegion.finish := by decide
  rw [hholds.fresh.returned, hlimit, hbase]
  exact hregion

theorem reads_builtin {word : DataWord} {name : String} (base : Except Fault Nat)
    (hname : sameName word.prim.name name = true) (himm : lacks word.prim.entry.flags immediate = true)
    (honly : lacks word.prim.entry.flags compileOnly = true) :
    (Atom.data word.prim.token word).Reads builtin.1 base name := by
  obtain ⟨entry, hlook, henters⟩ := lookup_builtin hname
  refine ⟨entry, hlook, henters.token_eq, by rw [henters.code_eq, Code.ofCell?_toCell], ?_, ?_⟩
  · exact congrArg not (henters.flags_eq ▸ himm)
  · exact congrArg not (henters.flags_eq ▸ honly)

/-- The dictionary once `;` was made a constant. -/
def withoutSemicolon : List Header × Dictionary :=
  (headedEntry builtin.1 builtin.2 ";" 0 .pushCell :: builtin.1,
    { headed builtin.2 ";" with here := (headed builtin.2 ";").here + 4 })

theorem withoutSemicolon_room : withoutSemicolon.2.here + 2 ^ 15 ≤ withoutSemicolon.2.names := by
  obtain ⟨_, hroom⟩ := @builtin_room ";" (by decide)
  have hcursors : withoutSemicolon.2.here = (headed builtin.2 ";").here + 4 ∧
    withoutSemicolon.2.names = (headed builtin.2 ";").names := ⟨rfl, rfl⟩
  rw [hcursors.1, hcursors.2]
  generalize headed builtin.2 ";" = dictionary at hroom
  omega

theorem exists_withoutSemicolon : ∃ m : Machine, m.Reachable ∧ Holds withoutSemicolon m := by
  obtain ⟨started, hstart, hholds⟩ := Session.start_eq .empty false
  have hstarted : started.Reachable := stateAfter_of_ok (hstart 0) ▸ .start .empty false 0 false
  have hfits : (encode "5 constant ;").length ≤ inputBufferSize := by decide
  obtain ⟨hhdr, hroom⟩ := @builtin_room ";" (by decide)
  have hline : Settles ["5 constant ;"] started fun ended => ∃ after, ended = .ok () after ∧ Holds withoutSemicolon after := by
    refine .of_finishes hholds.fresh.idle.bounded hfits ?_
    refine (hholds.readOn (.withLine started hfits)).constant
      (reading_withLine hholds.fresh.idle.bounded hfits) (by decide)
      (lookup_builtin_none (Prim.sameName_of_isNumeral (by decide)))
      (show read? 10 "5" = some (.single 5, -1) by decide) (calls_builtin (by decide) (by decide)) hhdr
      (Nat.le_trans (Nat.add_le_add_left (by decide) _) hroom)
  obtain ⟨after, hafter, bound, hrun⟩ := hline.exists_ok
  refine ⟨after, ?_, hafter⟩
  have hone : Session.interpretLine bound "5 constant ;" started = .ok () after := by
    rw [← Session.interpretEach_one]
    exact hrun bound (Nat.le_refl bound)
  exact stateAfter_of_ok hone ▸ hstarted.step (.line bound "5 constant ;")

section WithoutSemicolon

variable {m : Machine}

theorem lookup_withoutSemicolon_none {name : String} (hsemi : sameName ";" name = false)
    (hname : ∀ prim : Prim, sameName prim.name name = false) : lookup withoutSemicolon.1 name = none :=
  (lookup_cons_of_other hsemi).trans (lookup_builtin_none hname)

theorem Holds.settles_one (hholds : Holds withoutSemicolon m) :
    Settles ["1"] m fun ended => ∃ after, ended = .ok () after ∧ after.data.Carries after.memory [1] := by
  have hline : (encode "1").length ≤ inputBufferSize := by decide
  have hnew := hholds.readOn (.withLine m hline)
  refine .of_finishes hholds.fresh.idle.bounded hline ?_
  have hrd := reading_withLine hholds.fresh.idle.bounded hline
  obtain ⟨toIn, hnext, hleft, hrest⟩ :=
    nextToken?_of_reading hrd hnew.fresh.idle.bounded (show _ = [encode "1"] by decide)
  have hmoved := hnew.readOn (.readTo _ toIn)
  obtain ⟨pushed, htoken, hpush⟩ := hmoved.fresh.number
    (lookup_withoutSemicolon_none (by decide) (Prim.sameName_of_isNumeral (by decide)))
    (show read? 10 "1" = some (.single 1, -1) by decide)
  have hnoted := hmoved.readOn (.note _ (-1))
  have hexit : pushed.exiting = false := by
    rw [hpush.machine_eq]
    exact hnoted.fresh.exiting_eq
  refine .next hnext (fun fuel => htoken _) hexit (.blank hpush.bounded
    (hpush.reading hnoted.fresh.idle.bounded (hleft.note hmoved.fresh.idle.bounded (-1)))
    (fun _ hnone => nomatch hnone) (by rw [hrest]; rfl) fun after hreadOn => ⟨after, rfl, ?_⟩)
  obtain ⟨items, hitems, hafter⟩ := (hreadOn.twins hpush.bounded).items
  have hone : [1] = items := hpush.items.unique hitems
  exact hone ▸ hafter

/-- The definition is not closed, and its name is not found. -/
theorem Holds.settles_unclosed (hholds : Holds withoutSemicolon m) :
    Settles [": w 1 ;", "w"] m fun ended => ∃ after, ended = .error (.fault (.undefinedWord "w")) after := by
  have hfits : ∀ line ∈ [": w 1 ;", "w"], (encode line).length ≤ inputBufferSize := by decide
  have hline := hfits _ mem_cons_self
  have hnew := hholds.readOn (.withLine m hline)
  refine .of_finishes hholds.fresh.idle.bounded hline ?_
  have hrd := reading_withLine hholds.fresh.idle.bounded hline
  generalize withLine m (encode ": w 1 ;") = before at hnew hrd
  have hcolon : Calls withoutSemicolon.1 ":" (.defining .colon) false := by
    obtain ⟨header, hlook, hcalls⟩ :=
      (calls_builtin (by decide) (by decide) : Calls builtin.1 ":" (.defining .colon) false)
    exact ⟨header, (lookup_cons_of_other (by decide)).trans hlook, hcalls⟩
  have hroom : HeaderRoom "w" before.dictionary ∧
      (headed before.dictionary "w").here + 12 ≤ (headed before.dictionary "w").names := by
    have hfree := withoutSemicolon_room
    rw [← hnew.dictionary_eq] at hfree
    have hnear := aligned_lt before.dictionary.here
    have hlen : (encode "w").length = 1 := by decide
    have hsize : size = 20 := rfl
    have hheaded : (headed before.dictionary "w").here = aligned before.dictionary.here + size ∧
      (headed before.dictionary "w").names = before.dictionary.names - ((encode "w").length + 1) := ⟨rfl, rfl⟩
    exact ⟨⟨by decide, by omega⟩, by omega⟩
  refine hnew.fresh.idle.finishes_open hnew.fresh.exiting_eq hrd
    (show _ = _ :: _ :: [encode "1", encode ";"] by decide) hcolon (fun hfull => (hfull hroom.1).elim)
    fun _ opened hd hopened hleft => ?_
  have hhidden := headedEntry_hidden withoutSemicolon.1 before.dictionary "w" .colon
  have hsteps : Steps withoutSemicolon.1 (.ok 10) ["1", ";"]
      [Draft.number (.single 1), emit (Cell.ofNat (headedEntry builtin.1 builtin.2 ";" 0 .pushCell).xt)] := by
    refine .cons ?_ (.cons ?_ .nil)
    · rw [stepOf?, lookup_withoutSemicolon_none (by decide) (Prim.sameName_of_isNumeral (by decide)), stepFor?,
        show read? 10 "1" = some (.single 1, -1) by decide]
      rfl
    · rw [stepOf?, withoutSemicolon, lookup_cons_of_name (by decide) (by decide)]
      rfl
  refine hd.finishes (hsteps.cons_of_hidden hhidden) (hopened.base_eq.trans hnew.fresh.base_eq)
    (hopened.exiting_eq.trans hnew.fresh.exiting_eq) hleft (fun line hmember => hfits line (mem_cons_of_mem _ hmember))
    (show _ = _ ++ [encode "w"] by decide) (fun hnone => ?_) ?_
  · obtain ⟨next, hsome, -⟩ := @run_number_emit (openedDraft before.dictionary "w") 1
      (headedEntry builtin.1 builtin.2 ";" 0 .pushCell).xt hroom.2
    cases hnone.symm.trans hsome
  · intro next _ after left remaining hafter hlater hread hsub hlast
    refine .seek hafter.site.bounded hread
      (fun line hmember => hfits line (mem_cons_of_mem _ (hsub line hmember))) hlast ?_
    intro found toIn _ _ hreadOn hnext _ _ _
    have hmoved := hreadOn.trans (.readTo found toIn)
    have hopen := hmoved.drafting hafter
    have hfind := hopen.lexicon.findHeader?_eq "w"
    rw [lookup_cons_of_hidden hhidden, lookup_withoutSemicolon_none (by decide) Prim.sameName_w] at hfind
    have hbase : (found.readTo toIn).base = .ok 10 :=
      (hmoved.undisturbed 0).base_eq.trans (hlater.base_eq.trans (hopened.base_eq.trans hnew.fresh.base_eq))
    refine .stop 0 hnext fun fuel _ => ⟨_, found.readTo toIn, ?_, _, rfl⟩
    rw [interpretToken_of_unknown hopen.site.bounded hfind]
    refine run_of_error ((bind_of_ok (ask_of_ok hbase)).trans ?_)
    rw [show read? 10 "w" = none by decide]
    rfl

end WithoutSemicolon

end ThreadedForth
