
import ThreadedForth.Proofs.Session.Blind
import ThreadedForth.Proofs.Session.Loading
import ThreadedForth.Proofs.Structured.ReturnWords
import ThreadedForth.Proofs.Structured.StraightLine

/-!
# Line breaks

A line is interpreted word by word, and what is left of it is all that the interpreter keeps of it: whether it compiles,
which structures are open and where the dictionary ends is kept elsewhere. So a line may be broken between two words,
also in the middle of a definition.
-/

namespace ThreadedForth

open WordM Layout Utf8
open Machine (Abreast InStep)

theorem Utf8.encode_append_space (first second : String) :
    encode (first ++ " " ++ second) = encode first ++ 32 :: encode second := by
  have hspace : String.utf8EncodeChar ' ' = [32] := by decide
  simp [encode, String.toList_append, hspace]

variable {first second : Machine} {α : Type}

theorem Machine.Abreast.sameWork (habr : first.Abreast second) : first.SameWork second := by
  obtain ⟨hb, memory, source, hsame, rfl⟩ := habr
  exact hb.sameWork rfl rfl rfl rfl rfl hsame

theorem Extends.eq_of_ends {earlier more : RunM α} (hextends : Extends earlier more) {before after : Machine}
    (hends : earlier.Ends before after) : more before = earlier before := by
  rcases hextends.extends_ before with ⟨last, hout⟩ | hsame
  · rcases hends with ⟨_, hok⟩ | ⟨_, hfault⟩
    · cases hout.symm.trans hok
    · cases hout.symm.trans hfault
  · exact hsame

theorem EndTogether.ends {related : Machine → Machine → Prop} {action other : RunM α}
    {last : Machine} (htog : EndTogether related (action first) (other second))
    (hends : other.Ends second last) : ∃ done, action.Ends first done := by
  rcases htog.cases with ⟨answer, done, _, hfst, -⟩ | ⟨halt, done, _, hfst, hsnd, -⟩
  · exact ⟨done, .inl ⟨answer, hfst⟩⟩
  · rcases hends with ⟨_, hok⟩ | ⟨fault, hfault⟩
    · cases hsnd.symm.trans hok
    · cases hsnd.symm.trans hfault
      exact ⟨done, .inr ⟨fault, hfst⟩⟩

namespace Session

open Interpreter
open Moment (Watched)

variable {entries : List Header} {markers : List Marker} {m : Machine} {before after : String}

/-- A line with a break in it, and the same line without it, when they are laid into the input buffer. -/
theorem inStep_withLine (hb : m.Bounded) (hexiting : m.exiting = false)
    (hfits : (encode (before ++ " " ++ after)).length ≤ inputBufferSize) :
    InStep (Text.words (encode after)) (withLine m (encode (before ++ " " ++ after)))
      (withLine m (encode before)) := by
  have hjoin := encode_append_space before after
  have hbefore : (encode before).length ≤ inputBufferSize := by
    rw [hjoin, List.length_append] at hfits
    omega
  have hrunning (line : List UInt8) : (withLine m line).exiting = false := by
    simp only [withLine, Machine.readTo, hexiting]
  have hself : m.Abreast m := ⟨hb, m.memory, m.source, .refl _ _, rfl⟩
  refine ⟨(hself.withLine hfits).symm.trans (hself.withLine hbefore), hrunning _, _, _, reading_withLine hb hfits,
    reading_withLine hb hbefore, ?_⟩
  rw [hjoin, Text.words_append_cons_of_blank (by decide)]

variable {done other : Machine}

theorem inStep_catchesUp {serve : Serve} {later : List (List UInt8)}
    (habr : done.Abreast other) (hfits : (encode after).length ≤ inputBufferSize)
    (hcaught : CatchesUp later (Text.words (encode after)) serve fuel first done) :
    InStep [] done (withLine other (encode after)) := by
  obtain ⟨left, hleft, hwords⟩ := hcaught.reading
  refine ⟨habr.withLine hfits, hcaught.running, left, _, hleft, reading_withLine habr.second_bounded hfits, ?_⟩
  rw [hwords, List.append_nil]

variable {first second : Machine} {fuel : Nat}

/-- When the interpreter of the whole line comes to the break, it does with the rest what the other does with the next
line, given as much fuel. -/
theorem interpretLine_catchesUp (habr : done.Abreast other)
    (hfits : (encode after).length ≤ inputBufferSize)
    (hcaught : CatchesUp (Text.words (encode after)) (Text.words (encode after)) (serve fuel) fuel first done) :
    EndTogether Abreast (interpretSource (serve fuel) fuel done) (interpretLine fuel after other) := by
  have hline : interpretLine fuel after other = _ := interpretLine_eq habr.second_bounded.size_eq hfits
  rw [hline]
  exact interpretSource_together (serve_together (.inl rfl) fuel) rfl fuel (inStep_catchesUp habr hfits hcaught)
    hcaught.watched

section

variable (hfits : (encode after).length ≤ inputBufferSize)
  (hinStep : InStep (Text.words (encode after)) first second)
  (hwatched : Watched (Text.words (encode after)) ⟨first, [.source], none⟩)

include hfits hinStep hwatched

variable {last : Machine}

theorem together_of_joined (hends : (interpretSource (serve fuel) fuel).Ends first last) :
    EndTogether Abreast (interpretSource (serve fuel) fuel first)
      ((do interpretSource (serve fuel) fuel; interpretLine fuel after) second) := by
  rcases interpretSource_until (serve_together (.inr rfl) fuel) fuel hinStep hwatched with
    ⟨done, other, hsnd, habr, hcaught⟩ | ⟨fault, done, other, hsnd, habr, hfst⟩ |
    ⟨done, other, hsnd, hfst⟩
  · obtain ⟨count, hcount, hgoesOn⟩ := hcaught.goesOn
    have hfst := hgoesOn (fuel - count)
    rw [Nat.add_sub_cancel' hcount] at hfst
    have hdone : (interpretSource (serve fuel) (fuel - count)).Ends done last := by
      rw [RunM.Ends, ← hfst]
      exact hends
    have hextends := extends_interpretSource (serve fuel) (serve fuel) (Nat.sub_le fuel count)
    rw [bind_of_ok hsnd, hfst, ← hextends.eq_of_ends hdone]
    exact interpretLine_catchesUp habr hfits hcaught
  · have hwhole : interpretSource (serve fuel) fuel first = .error (.fault fault) done := hfst 0
    rw [bind_of_error hsnd, hwhole]
    exact ⟨rfl, habr⟩
  · rcases hends with ⟨_, hok⟩ | ⟨_, hfault⟩
    · cases hfst.symm.trans hok
    · cases hfst.symm.trans hfault

/-- If the interpreter of the two lines comes back, so does the other, given twice the fuel. -/
theorem together_of_broken
    (hends : (do interpretSource (serve fuel) fuel; interpretLine fuel after : RunM Unit).Ends second last) :
    EndTogether Abreast (interpretSource (serve (2 * fuel)) (2 * fuel) first)
      ((do interpretSource (serve fuel) fuel; interpretLine fuel after) second) := by
  have hserve := fun request => extends_serve (Nat.le_mul_of_pos_left fuel Nat.two_pos) request
  have hmore {count : Nat} (hcount : count ≤ 2 * fuel) {last : Machine}
      (hcomes : (interpretSource (serve fuel) count).Ends first last) :
      interpretSource (serve (2 * fuel)) (2 * fuel) first = interpretSource (serve fuel) count first :=
    (extends_interpretSource (serve fuel) (serve (2 * fuel)) hcount).eq_of_ends hcomes
  rcases interpretSource_until (serve_together (.inr rfl) fuel) fuel hinStep hwatched with
    ⟨done, other, hsnd, habr, hcaught⟩ | ⟨fault, done, other, hsnd, habr, hfst⟩ |
    ⟨done, other, hsnd, hfst⟩
  · obtain ⟨count, hcount, hgoesOn⟩ := hcaught.goesOn
    have htog := interpretLine_catchesUp habr hfits hcaught
    have hnext : (interpretLine fuel after).Ends other last := by
      rw [RunM.Ends, bind_of_ok hsnd] at hends
      exact hends
    obtain ⟨final, hdone⟩ := htog.ends hnext
    have hwhole : (interpretSource (serve fuel) (count + fuel)).Ends first final := by
      rw [RunM.Ends, hgoesOn]
      exact hdone
    rw [bind_of_ok hsnd, hmore (by omega) hwhole, hgoesOn]
    exact htog
  · have hwhole : interpretSource (serve fuel) fuel first = .error (.fault fault) done := hfst 0
    rw [bind_of_error hsnd, hmore (by omega) (.inr ⟨fault, hwhole⟩), hwhole]
    exact ⟨rfl, habr⟩
  · rw [RunM.Ends, bind_of_error hsnd] at hends
    rcases hends with ⟨_, hok⟩ | ⟨_, hfault⟩
    · cases hok
    · cases hfault

end

theorem forM_pair_eq {run : String → RunM Unit} {action : RunM Unit} {line next : String} {laid : Machine}
    (hline : run line m = action laid) :
    [line, next].forM run m = (do action; run next : RunM Unit) laid := by
  have hlines : [line, next].forM run = (do run line; run next : RunM Unit) := by simp
  rw [hlines]
  cases hact : action laid with
  | ok answer last => rw [bind_of_ok hact, bind_of_ok (hline.trans hact)]
  | error halt last => rw [bind_of_error hact, bind_of_error (hline.trans hact)]

theorem staysBlind_definition {started : Machine} (hholds : Holds builtin started) :
    Moment.StaysBlind (Text.words (encode ";")) ⟨started, [.line ": x ;"], none⟩ := by
  have habove {xt : Nat} (hstart : dictionaryStart ≤ xt) : Away xt :=
    away_of_le (Nat.le_trans (by decide) hstart)
  obtain ⟨m, xt, bytes, hready, hrd, hwords, hprim, hstart, hleads⟩ := hholds.quietlyLeads_colon openingLine_semicolon
  obtain ⟨opened, hopen, hunclosed⟩ := hready.exists_unclosed calls_semicolon hrd hwords
  obtain ⟨later, last, left, hd, hexiting, hleft, hnone, hclosing, hlast, hlater⟩ :=
    hunclosed.quietlyLeads m.ip
  obtain ⟨closed, hclose, hidle, hsame, hkept, -⟩ :=
    (hd.withIp 0).closes rfl hunclosed.markers_eq hunclosed.room
  have hclosed : closed.ip = 0 ∧ closed.exiting = false := by
    rw [hsame.machine]
    exact ⟨rfl, hexiting⟩
  have hresumed : Machine.Bounded { closed with ip := later.ip } := { hidle.bounded with }
  obtain ⟨toIn, hend⟩ :=
    ((hkept left (hleft.withIp 0)).withIp later.ip).quietlyLeads_end hresumed hnone []
  refine hleads.staysBlind (.dispatch (habove hstart) hprim (fun other hother => ?_) (bind_of_ok hopen) ?_)
  · rw [← (hrd.withIp 0).unique hother, hwords]
    decide
  · refine hlater.staysBlind (.dispatch (habove hlast) hclosing trivial (bind_of_ok hclose) ?_)
    exact (Moment.quietlyLeads_goOn hclosed.1 hclosed.2 later.ip []).staysBlind (hend.staysBlind (.done _ _))

end Session

/-! ### Text that is executed

What stands on the return stack is where a word returns to. A word that puts the address of the input buffer there goes
on with the text of the line as its code. -/

section Astray

variable {base m : Machine} {thread : Thread}

theorem Follows.runThread_invalid (hfol : Follows base thread m) (hpos : 0 < thread.ip)
    (halign : thread.ip % 4 = 0) (hrange : thread.ip + 4 ≤ dictionaryEnd)
    (hlarge : memorySize ≤ (base.memory.cellAt thread.ip).toNatClampNeg) :
    ∃ after, ∀ serve fuel, Interpreter.runThread serve (fuel + 1) m =
      .error (.fault (.invalidAddress (base.memory.cellAt thread.ip).toInt)) after := by
  have haddr : Memory.address { m with ip := thread.ip + 4 }.memory (base.memory.cellAt thread.ip) =
      .error (.invalidAddress (base.memory.cellAt thread.ip).toInt) := by
    rw [Memory.address, hfol.bounded.size_eq, if_pos (.inr hlarge)]
  have hfetch : Interpreter.fetchToken m =
      .error (.invalidAddress (base.memory.cellAt thread.ip).toInt) { m with ip := thread.ip + 4 } := by
    refine (bind_of_ok (hfol.inlineCell_eq halign hrange)).trans ?_
    rw [ask, haddr]
  refine ⟨{ m with ip := thread.ip + 4 }, fun serve fuel => ?_⟩
  rw [Interpreter.runThread]
  refine (bind_of_ok (show (get : RunM Machine) m = .ok m m from rfl)).trans ?_
  rw [if_neg (by rw [hfol.ip_eq]; omega)]
  exact bind_of_error (run_of_error hfetch)

/-- A word that puts an address on the return stack returns there. -/
theorem Completed.astray {name : String} {entries : List Header} {draft : Draft} {markers : List Marker}
    {before now : Machine} {place : Nat} (hcomp : Completed entries name draft before now)
    (hchunk : Chunk [Cell.ofNat (Prim.thread .lit).token, Cell.ofNat place, Cell.ofNat (Prim.stack .toR).token] markers
      (openedDraft before.dictionary name) draft)
    (hroom : draft.here + 4 ≤ draft.names) (hprims : ∀ prim : Prim, Stands entries prim.token prim)
    (hempty : now.data.top = now.data.base) (hreturned : now.returns.top = now.returns.base) (hpos : 0 < place)
    (halign : place % 4 = 0) (hrange : place + 4 ≤ dictionaryEnd)
    (hlarge : memorySize ≤ (now.memory.cellAt place).toNatClampNeg) :
    ∃ after, ∀ fuel, Interpreter.interpretToken (Interpreter.serve (fuel + 5)) name now =
      .error (.fault (.invalidAddress (now.memory.cellAt place).toInt)) after := by
  have hbacks (prim : Prim) : Backs now prim.token prim := ((hprims prim).cons _).backs hcomp.idle.lexicon
  obtain ⟨items, returns, hrefl⟩ := Follows.exists_refl hcomp.idle.bounded
  have hcells : items.length < dataCells ∧ returns.length + 2 ≤ returnCells := by
    have hdata : _ + 4 * items.length = _ := hrefl.items.depth_eq
    have hret : _ + 4 * returns.length = _ := hrefl.returns.depth_eq
    have horder := order
    omega
  obtain ⟨first, entered, hfst, hmod, hlast, hheld, hent, hserve⟩ :=
    hcomp.enters hchunk hroom hrefl (by omega)
  simp only [List.length_cons, List.length_nil] at hlast
  have hinline := @ThreadWord.plays_inlineCell now ⟨first + 4, items, Cell.ofNat 0 :: returns⟩
    (by simp only; omega) (by simp only; omega)
  rw [show now.memory.cellAt (first + 4) = Cell.ofNat place from hheld.tail.head] at hinline
  have hpush := @moves_receive now (first + 8) items (Cell.ofNat 0 :: returns) (Cell.ofNat place)
  rw [Stacks.receive, Items.push, if_pos hcells.1] at hpush
  obtain ⟨pushed, hpushed, hlit⟩ := hent.round_of_plays hfst hmod (by simp only; omega) hheld.head
    (hbacks (.thread .lit)) (hinline.bind hpush.complete)
  have hsend := @Transfer.moves now (first + 12) (Cell.ofNat place :: items) (Cell.ofNat 0 :: returns) .toR
  rw [Transfer.effect, Stacks.send, if_pos (by rw [List.length_cons]; omega)] at hsend
  obtain ⟨sent, hsent, htoR⟩ := hpushed.round_of_plays (by simp only [Thread.withStacks]; omega)
    (by simp only [Thread.withStacks]; omega) (by simp only [Thread.withStacks]; omega) hheld.tail.tail.head
    (hbacks (.stack .toR)) hsend.complete
  have hreturn := @ThreadWord.plays_returnToCaller now
    ⟨first + 16, items, Cell.ofNat place :: Cell.ofNat 0 :: returns⟩
  rw [Op.run_exit (by omega)] at hreturn
  obtain ⟨away, haway, hexit⟩ := hsent.round_of_plays (by simp only [Thread.withStacks]; omega)
    (by simp only [Thread.withStacks]; omega) (by simp only [Thread.withStacks]; omega) hheld.tail.tail.tail.head (hbacks (.thread .exit)) (Plays.complete hreturn)
  obtain ⟨last, hinvalid⟩ := haway.runThread_invalid hpos halign hrange hlarge
  refine ⟨{ last with ip := now.ip }, fun fuel => ?_⟩
  rw [hcomp.interpretToken_eq, hserve, hlit, htoR, hexit, hinvalid]
  rfl

end Astray

/-- The machine has a word that returns to the second cell of the input buffer. Its stacks are empty. -/
structure Strays (name : String) (m : Machine) : Prop where
  empty : m.data.top = m.data.base
  returned : m.returns.top = m.returns.base
  completed : ∃ before draft markers, Completed builtin.1 name draft before m ∧
    Chunk [Cell.ofNat (Prim.thread .lit).token, Cell.ofNat (inputBuffer + 4),
      Cell.ofNat (Prim.stack .toR).token] markers (openedDraft before.dictionary name) draft ∧
    draft.here + 4 ≤ draft.names

namespace Strays

variable {name line : String} {m after : Machine}

theorem bounded (hstrays : Strays name m) : m.Bounded := by
  obtain ⟨_, _, _, hcomp, -⟩ := hstrays.completed
  exact hcomp.idle.bounded

theorem readOn (hstrays : Strays name m) (hreadOn : ReadOn m after) : Strays name after := by
  obtain ⟨before, draft, markers, hcomp, hchunk, hroom⟩ := hstrays.completed
  have hstart := Nat.le_trans hcomp.start_le (Nat.le_add_right _ Header.size)
  refine ⟨?_, ?_, before, draft, markers, ?_, hchunk, hroom⟩
  · rw [hreadOn.machine]
    exact hstrays.empty
  · rw [hreadOn.machine]
    exact hstrays.returned
  · exact hcomp.readOn hreadOn hstart (by rw [hchunk.here_eq]; exact Nat.le_add_right _ _)

/-- The second cell of a line that starts with the word is executed. -/
theorem settles {words : List (List UInt8)} {lowest second third highest : UInt8} (hstrays : Strays name m)
    (hfits : (encode line).length ≤ inputBufferSize)
    (hwords : Text.ofLine line = encode name :: words) (hlen : 8 ≤ (encode line).length)
    (hcell : ((encode line).drop 4).take 4 = [lowest, second, third, highest])
    (hlarge : memorySize ≤ (Cell.ofBytes lowest second third highest).toNatClampNeg) :
    Settles [line] m fun ended => ∃ after,
      ended = .error (.fault (.invalidAddress (Cell.ofBytes lowest second third highest).toInt)) after := by
  have hb := hstrays.bounded
  have hsize := hb.size_eq
  have horder := Layout.order
  have hnew := hstrays.readOn (.withLine m hfits)
  have hrd := Interpreter.reading_withLine hb hfits
  have hbytes := Interpreter.bytesAt_withLine hb.size_eq hfits
  have hwhole := (Interpreter.sameOutside_withLine m hfits).size
  refine .of_finishes hb hfits ?_
  generalize Interpreter.withLine m (encode line) = now at hnew hrd hbytes hwhole
  obtain ⟨toIn, hnext, -⟩ := nextToken?_of_reading hrd hnew.bounded hwords
  have hmoved := hnew.readOn (.readTo now toIn)
  obtain ⟨before, draft, markers, hcomp, hchunk, hroom⟩ := hmoved.completed
  have hvalue : (now.readTo toIn).memory.cellAt (inputBuffer + 4) = Cell.ofBytes lowest second third highest := by
    have hapart : (now.readTo toIn).memory.cellAt (inputBuffer + 4) = now.memory.cellAt (inputBuffer + 4) :=
      Memory.cellAt_setCell_of_apart _ _ (.inr (by decide))
    rw [hapart]
    refine Memory.cellAt_of_bytesAt (by omega) ?_
    rw [Memory.bytesAt_take _ (by omega) (show 4 ≤ (encode line).length - 4 by omega),
      Memory.bytesAt_drop _ (by omega) (by omega), hbytes, hcell]
  obtain ⟨last, htoken⟩ := hcomp.astray hchunk hroom stands_builtin hmoved.empty hmoved.returned (by decide)
    (by decide) (by decide) (hvalue ▸ hlarge)
  rw [hvalue] at htoken
  refine .stop 5 hnext fun fuel hfuel => ⟨_, last, ?_, _, rfl⟩
  obtain ⟨fuel, rfl⟩ := Nat.exists_eq_add_of_le' hfuel
  exact htoken fuel

end Strays

theorem exists_strays : ∃ m : Machine, m.Reachable ∧ m.exiting = false ∧ Strays "foo" m := by
  obtain ⟨started, hstart, hholds⟩ := Session.start_eq .empty false
  have hstarted : started.Reachable := stateAfter_of_ok (hstart 0) ▸ .start .empty false 0 false
  have hcan := hholds.canDefine
  obtain ⟨hhdr, hroom⟩ := @builtin_room "foo" (by decide)
  rw [← hholds.dictionary_eq] at hhdr hroom
  have htext : DefinitionText "foo" ["24", ">r"] [": foo 24 >r ;"] :=
    ⟨by decide, ⟨_, [], ["24", ">r", ";"].map encode, rfl, by decide⟩, by decide⟩
  have hsteps : Steps builtin.1 (.ok 10) ["24", ">r"]
      [Draft.number (.single 24), Draft.emit (Cell.ofNat (Prim.stack .toR).token)] := by
    refine .cons ?_ (.cons ?_ .nil)
    · rw [stepOf?, lookup_builtin_none (Prim.sameName_of_isNumeral (by decide)), stepFor?,
        show Number.read? 10 "24" = some (.single 24, -1) by decide]
      rfl
    · obtain ⟨entry, hlook, henters⟩ := @lookup_builtin (.stack .toR) ">r" (by decide)
      rw [stepOf?, hlook, stepFor?, Header.isImmediate, henters.flags_eq, if_neg (by decide),
        show entry.xt = _ from henters.token_eq]
  obtain ⟨draft, hdraft, hchunk⟩ := @Draft.run_number_emit (openedDraft started.dictionary "foo") 24
    (Prim.stack .toR).token (by
      change (headed started.dictionary "foo").here + 12 ≤ (headed started.dictionary "foo").names
      omega)
  have hend : draft.here + 4 ≤ draft.names := by
    rw [hchunk.here_eq, hchunk.names_eq]
    change (headed started.dictionary "foo").here + 12 + 4 ≤ (headed started.dictionary "foo").names
    omega
  have hsettles := hcan.idle.settles hholds.fresh.base_eq hcan.exiting_eq htext hcan.colon hcan.semicolon hsteps
    fun _ other hother => by
      cases hdraft.symm.trans hother
      exact hchunk.markers_eq
  obtain ⟨after, hcomp, bound, hrun⟩ := (hsettles.of_defines hhdr hdraft hend).exists_ok
  have hone : Session.interpretLine bound ": foo 24 >r ;" started = .ok () after := by
    rw [← Session.interpretEach_one]
    exact hrun bound (Nat.le_refl bound)
  have hsame := hcomp.undisturbed
  refine ⟨after, stateAfter_of_ok hone ▸ hstarted.step (.line bound ": foo 24 >r ;"),
    hsame.exiting_eq.trans hholds.fresh.exiting_eq, ?_, ?_, started, draft, _, hcomp, hchunk, hend⟩
  · rw [hsame.machine]
    exact hholds.fresh.empty
  · rw [hsame.machine]
    exact hholds.fresh.returned

end ThreadedForth
