
import ThreadedForth.Proofs.Interpreter.SideBySide
import ThreadedForth.Proofs.Machine.Items

/-!
# Loading a file and inserting its text

A file is read by one loop, a text that is at hand by another. The lines come out the same, they are laid at the same
place and interpreted from machines that no word can tell apart, so both loops do the same work and stop at the same
line.
-/

namespace ThreadedForth

open WordM Layout Utf8 Machine

/-! ### The same work -/

/-- Two machines with the same work done: they have the same items on their stacks, the same cursors, the same output
and the same memory, except where the text stands that is read. -/
structure Machine.SameWork (first second : Machine) : Prop where
  data_eq : second.data.contents second.memory = first.data.contents first.memory
  returns_eq : second.returns.contents second.memory = first.returns.contents first.memory
  control_eq : second.control.contents second.memory = first.control.contents first.memory
  dictionary_eq : second.dictionary = first.dictionary
  output_eq : second.output = first.output
  memory : Memory.SameOutside SourceArea first.memory second.memory

theorem Stack.Fits.contents_eq {kind : StackKind} {region : Region} {stack : Stack} {first second : Memory}
    (hfits : stack.Fits kind region) (hsize : first.size = memorySize) (hlow : pad ≤ region.start)
    (hsame : Memory.SameOutside SourceArea first second) : stack.contents second = stack.contents first := by
  obtain ⟨items, hitems⟩ := hfits.exists_carries first
  have hother : stack.Carries second items := by
    refine hitems.frame hsame fun addr hfst _ hin => ?_
    have hlimit := hfits.limit_le
    have hstart := hfits.limit_eq
    have horder := order
    rcases hin with ⟨_, hlast⟩ | ⟨_, hlast⟩ <;> (simp only at hlast; omega)
  rw [hitems.contents_eq (hfits.stands hsize), hother.contents_eq (hfits.stands (hsame.size.trans hsize))]

theorem Machine.Bounded.sameWork {first second : Machine} (hb : first.Bounded) (hdata : second.data = first.data)
    (hret : second.returns = first.returns) (hctl : second.control = first.control)
    (hdict : second.dictionary = first.dictionary) (houtput : second.output = first.output)
    (hmem : Memory.SameOutside SourceArea first.memory second.memory) : first.SameWork second where
  data_eq := by
    rw [hdata]
    exact hb.data.contents_eq hb.size_eq (by decide) hmem
  returns_eq := by
    rw [hret]
    exact hb.returns.contents_eq hb.size_eq (by decide) hmem
  control_eq := by
    rw [hctl]
    exact hb.control.contents_eq hb.size_eq (by decide) hmem
  dictionary_eq := hdict
  output_eq := houtput
  memory := hmem

/-! ### Line by line -/

/-- Of the lines the first `count` come to their ends, and the next one fails. -/
def StopsAt (run : String → RunM Unit) (lines : List String) (m : Machine) (count : Nat) (fault : Fault) : Prop :=
  ∃ line before after, lines[count]? = some line ∧ (lines.take count).forM run m = .ok () before ∧
    run line before = .error (.fault fault) after

theorem StopsAt.cons {run : String → RunM Unit} {line : String} {lines : List String} {m after : Machine}
    {count : Nat} {fault : Fault} (hline : run line m = .ok () after)
    (hstops : StopsAt run lines after count fault) : StopsAt run (line :: lines) m (count + 1) fault := by
  obtain ⟨failing, before, last, hfailing, hbefore, hlast⟩ := hstops
  exact ⟨failing, before, last, hfailing, (bind_of_ok hline).trans hbefore, hlast⟩

namespace Interpreter

open Machine (Beside NestedIn)

variable {serve : Serve}

variable {m : Machine}

theorem interpretLines_cons {fuel : Nat} {line : String} {lines : List (Except DiskFault String)}
    (hexiting : m.exiting = false) {path : String} {count : Nat} {readers : List Reader}
    (hreaders : m.readers = ⟨path, count⟩ :: readers) :
    interpretLines serve fuel (.ok line :: lines) m =
      (interpretLine serve fuel line >>= fun _ => interpretLines serve fuel lines)
        { m with readers := ⟨path, count + 1⟩ :: readers } := by
  have hcount : countLine m = .ok () { m with readers := ⟨path, count + 1⟩ :: readers } := by
    simp only [countLine, update, hreaders]
  rw [interpretLines]
  refine (bind_of_ok rfl).trans ?_
  rw [if_neg (hexiting ▸ Bool.false_ne_true)]
  exact bind_of_ok (run_of_ok hcount)

section

variable [∀ request, Parallel Beside (serve request)] [∀ outer request, Restores (NestedIn outer) (serve request)]

/-- The lines of a file do what they do as lines of a text, as long as none of them asks to end. The streams show
which line has failed. -/
theorem interpretLines_together {fuel : Nat} {lines : List String} {first second : Machine}
    (hbeside : first.Beside second) {path : String} {read : Nat} {readers : List Reader}
    (hreaders : second.readers = ⟨path, read⟩ :: readers)
    (hruns : ∀ count after, (lines.take count).forM (interpretLine serve fuel) first = .ok () after →
      after.exiting = false) :
    EndTogether Beside (lines.forM (interpretLine serve fuel) first)
        (interpretLines serve fuel (lines.map .ok) second) ∧
      ∀ fault final, interpretLines serve fuel (lines.map .ok) second = .error (.fault fault) final →
        ∃ count, StopsAt (interpretLine serve fuel) lines first count fault ∧
          final.readers = ⟨path, read + count + 1⟩ :: readers := by
  induction lines generalizing first second read with
  | nil => exact ⟨⟨rfl, hbeside⟩, fun _ _ herror => by cases herror⟩
  | cons line lines ih =>
    have hline : Parallel Beside (interpretLine serve fuel line) := inferInstance
    have hexiting : second.exiting = false := by
      obtain ⟨_, _, _, rfl⟩ := hbeside
      exact hruns 0 first rfl
    have hcounted : first.Beside { second with readers := ⟨path, read + 1⟩ :: readers } := by
      obtain ⟨_, _, _, rfl⟩ := hbeside
      exact ⟨_, _, _, rfl⟩
    rw [List.map_cons, interpretLines_cons hexiting hreaders]
    change EndTogether Beside ((interpretLine serve fuel line >>= fun _ => lines.forM _) first) _ ∧ _
    generalize hm : ({ second with readers := ⟨path, read + 1⟩ :: readers } : Machine) = counted at hcounted
    have hstreams : counted.readers = ⟨path, read + 1⟩ :: readers := by rw [← hm]
    have hends := hline.parallel first counted hcounted
    have hkept : ∀ final, (interpretLine serve fuel line).Ends counted final →
        final.readers = ⟨path, read + 1⟩ :: readers := by
      intro final hfinal
      have hnested : counted.NestedIn final := Restores.restores (.refl _) hfinal
      exact hnested.readers_eq.trans hstreams
    rcases hends.cases with ⟨_, last, final, hfst, hsnd, hafter⟩ | ⟨halt, last, final, hfst, hsnd, hafter⟩
    · obtain ⟨htog, hstops⟩ := ih hafter (hkept final (.inl ⟨_, hsnd⟩)) fun count after hrun =>
        hruns (count + 1) after ((bind_of_ok hfst).trans hrun)
      rw [bind_of_ok hsnd]
      refine ⟨?_, fun fault failed herror => ?_⟩
      · rw [bind_of_ok hfst]
        exact htog
      · obtain ⟨count, hcount, hfailed⟩ := hstops fault failed herror
        refine ⟨count + 1, hcount.cons hfst, ?_⟩
        rw [hfailed]
        simp only [Nat.add_assoc, Nat.add_comm 1]
    · rw [bind_of_error hsnd]
      refine ⟨?_, fun fault failed herror => ?_⟩
      · rw [bind_of_error hfst]
        exact ⟨rfl, hafter⟩
      · cases herror
        exact ⟨0, ⟨line, first, last, rfl, rfl, hfst⟩, hkept _ (.inr ⟨_, hsnd⟩)⟩

end

/-! ### Opening and closing -/

/-- A file that can be opened is read line by line, with the source set aside. -/
theorem loadFile_of_open {path : String} {m : Machine} {file : DiskFile} (hb : m.Bounded)
    (hopen : m.disk.openFile path = .ok file) : ∃ reports, ∀ serve fuel,
      loadFile serve fuel path m = RunM.andAlways (interpretLines serve fuel file.lines)
        (closeFile m.readers (m.memory.bytesAt inputBuffer inputBufferSize))
        { m.suspend with readers := ⟨path, 0⟩ :: m.readers, reports } := by
  have hfile : openFile path m = .ok file m := by
    refine (bind_of_ok rfl).trans ?_
    rw [hopen]
    rfl
  have htold : ∃ reports, reportLoading path m = .ok () { m with reports } := by
    by_cases hverbose : m.verbose = true
    · refine ⟨m.reports.push ("Info: include: loading: " ++ Quoted.encode path), (bind_of_ok rfl).trans ?_⟩
      rw [if_pos hverbose]
      rfl
    · refine ⟨m.reports, (bind_of_ok rfl).trans ?_⟩
      rw [if_neg hverbose]
      rfl
  obtain ⟨reports, htold⟩ := htold
  have hline : readBytes inputBuffer inputBufferSize { m with reports } =
      .ok (m.memory.bytesAt inputBuffer inputBufferSize) { m with reports } := by
    have hbuffer : inputBuffer + inputBufferSize ≤ m.memory.size := by
      rw [hb.size_eq]
      decide
    rw [readBytes, ask, Memory.readBytes_eq_ok hbuffer]
  have hroom : toIn + 4 ≤ m.memory.size := by
    rw [hb.size_eq]
    decide
  refine ⟨reports, fun serve fuel => ?_⟩
  rw [loadFile_eq]
  have hsuspend := @suspendSource_of_room { m with reports } hroom
  refine (bind_of_ok (run_of_ok hfile)).trans ((bind_of_ok (run_of_ok htold)).trans
    ((bind_of_ok (run_of_ok hline)).trans ((bind_of_ok (run_of_ok hsuspend)).trans ?_)))
  rfl

theorem leave_of_suspended (hb : m.Bounded) {source : Source} {toIn : Cell}
    {rest : List Suspended} (hsusp : m.suspended = ⟨source, toIn⟩ :: rest) (readers : List Reader)
    {line : List UInt8} (hline : line.length = inputBufferSize) :
    ∃ memory, loadFile.leave readers line m =
        .ok () { m with source, suspended := rest, readers, memory } ∧
      Memory.SameOutside SourceArea m.memory memory := by
  have hroom : inputBuffer + line.length ≤ m.memory.size := by
    rw [hb.size_eq, hline]
    decide
  have hmem : onMemory (Memory.writeBytes inputBuffer line) { m with readers } =
      .ok () { m with readers, memory := m.memory.setBytes inputBuffer line } := by
    rw [onMemory, Memory.writeBytes_eq_ok line hroom]
  have hsize : Layout.toIn + 4 ≤ (m.memory.setBytes inputBuffer line).size := by
    rw [Memory.size_setBytes, hb.size_eq]
    decide
  have hresume := @resumeSource_of_cons
    { m with readers, memory := m.memory.setBytes inputBuffer line } _ _ _ hsusp hsize
  refine ⟨_, (bind_of_ok rfl).trans ((bind_of_ok (run_of_ok hmem)).trans (run_of_ok hresume)), ?_⟩
  refine ((Memory.sameOutside_setBytes _ _ _).mono fun addr hin => .inr ?_).trans
    ((Memory.sameOutside_setCell _ _ _).mono fun addr hin => .inl hin)
  rw [hline] at hin
  exact hin

theorem sameWork_of_leave {last final : Machine} (hm : m.Bounded) (hlast : last.Bounded)
    (hbeside : last.Beside final) (haside : final.suspended = m.suspend.suspended) :
    ∃ loaded, loadFile.leave m.readers (m.memory.bytesAt inputBuffer inputBufferSize) final =
        .ok () loaded ∧ last.SameWork loaded ∧ loaded.reports = final.reports := by
  have hlen : (m.memory.bytesAt inputBuffer inputBufferSize).length =
      inputBufferSize := by
    refine Memory.length_bytesAt _ _ _ ?_
    rw [hm.size_eq]
    decide
  have hfinal : final.Bounded := by
    obtain ⟨_, _, _, rfl⟩ := hbeside
    exact { hlast with }
  obtain ⟨memory, hleave, hmem⟩ := leave_of_suspended hfinal haside m.readers hlen
  obtain ⟨_, _, _, rfl⟩ := hbeside
  exact ⟨_, hleave, hlast.sameWork rfl rfl rfl rfl rfl hmem, rfl⟩

end Interpreter

/-! ### Whole texts -/

namespace Session

open Interpreter

/-- Loading a file is inserting its text. For a text without carriage returns, and a machine that has not been asked to
end, neither at first nor after one of the lines, both come to an end or fail with the same fault, or neither ends. The
same work is done: the items of the three stacks, the cursors of the dictionary and the output are the same, and so is
memory outside the input buffer and the cell that says how far it was read. A fault comes from the same line, which is
the one that is reported. -/
theorem loadFile_sameWork {machine : Machine} (hbounded : machine.Bounded) {path text : String}
    (hreturn : '\r' ∉ text.toList) (hfile : machine.disk.openFile path = .ok (.regular (Utf8.encode text)))
    {fuel : Nat} (hruns : ∀ count after, ((Lines.ofText text).take count).forM (interpretLine fuel) machine =
      .ok () after → after.exiting = false) :
    EndTogether Machine.SameWork (interpretText fuel text machine) (loadFile fuel path machine) ∧
      ∀ fault loaded, loadFile fuel path machine = .error (.fault fault) loaded →
        ∃ count, StopsAt (interpretLine fuel) (Lines.ofText text) machine count fault ∧
          loaded.reports.back? = some ("Error: include: " ++ path ++ " line " ++ toString (count + 1) ++ ": " ++
            Quoted.encode fault.message) := by
  obtain ⟨reports, hload⟩ := loadFile_of_open hbounded hfile
  replace hload := hload (serve fuel) fuel
  generalize hopening : { machine.suspend with readers := ⟨path, 0⟩ :: machine.readers, reports } = opened at hload
  have hopened : machine.Beside opened := ⟨_, _, _, hopening.symm⟩
  have hreaders : opened.readers = ⟨path, 0⟩ :: machine.readers := by rw [← hopening]
  have hsuspended : opened.suspended = machine.suspend.suspended := by rw [← hopening]
  obtain ⟨htogether, hstops⟩ : EndTogether Machine.Beside ((Lines.ofText text).forM (interpretLine fuel) machine)
      (interpretLines (serve fuel) fuel ((Lines.ofText text).map .ok) opened) ∧ _ :=
    @interpretLines_together (serve fuel) inferInstance inferInstance fuel (Lines.ofText text) machine opened hopened
      path 0 machine.readers hreaders hruns
  have haside {final} (hends : (interpretLines (serve fuel) fuel ((Lines.ofText text).map .ok)).Ends opened final) :
      final.suspended = machine.suspend.suspended := by
    have hkept : SetAside machine.suspend final :=
      Restores.restores ⟨hsuspended, hopened.size_eq⟩ hends
    exact hkept.1
  rw [DiskFile.lines_encode hreturn] at hload
  change loadFile fuel path machine = _ at hload
  rw [interpretText]
  generalize loadFile fuel path machine = loading at hload ⊢
  cases htext : (Lines.ofText text).forM (interpretLine fuel) machine with
  | ok answer last =>
    have hlast : last.Bounded := Keeps.of_ok hbounded htext
    cases hbody : interpretLines (serve fuel) fuel ((Lines.ofText text).map .ok) opened <;>
      rw [htext, hbody] at htogether
    · next final =>
      obtain ⟨loaded, hleave, hsame, -⟩ :=
        sameWork_of_leave hbounded hlast htogether.2 (haside (.inl ⟨_, hbody⟩))
      have hloaded : loading = .ok () loaded := hload.trans (andAlways_of_ok hbody hleave)
      rw [hloaded]
      exact ⟨⟨rfl, hsame⟩, fun _ _ herror => by cases herror⟩
    · exact htogether.elim
  | error halt last =>
    have hlast : last.Bounded := Keeps.of_error hbounded htext
    cases hbody : interpretLines (serve fuel) fuel ((Lines.ofText text).map .ok) opened <;>
      rw [htext, hbody] at htogether
    · exact htogether.elim
    · next stop final =>
      obtain ⟨rfl, hbeside⟩ := htogether
      cases halt with
      | outOfFuel =>
        have hloaded : loading = .error .outOfFuel final := by rw [hload, RunM.andAlways, hbody]
        rw [hloaded]
        obtain ⟨_, _, _, rfl⟩ := hbeside
        exact ⟨⟨rfl, hlast.sameWork rfl rfl rfl rfl rfl (.refl _ _)⟩, fun _ _ herror => by cases herror⟩
      | fault fault =>
        obtain ⟨count, hcount, hstreams⟩ := hstops fault final hbody
        have htold : last.Beside (stateAfter (reportFailed ⟨path, 0 + count + 1⟩ fault) final) := by
          obtain ⟨_, _, _, rfl⟩ := hbeside
          exact ⟨_, _, _, rfl⟩
        obtain ⟨loaded, hleave, hsame, hreports⟩ :=
          sameWork_of_leave hbounded hlast htold (haside (.inr ⟨_, hbody⟩) : final.suspended = _)
        have hloaded : loading = .error (.fault fault) loaded :=
          hload.trans (andAlways_of_fault hbody ((closeFile_of_fault hstreams _ _ _).trans hleave))
        rw [hloaded]
        refine ⟨⟨rfl, hsame⟩, fun other after hafter => ?_⟩
        cases hafter
        refine ⟨count, hcount, ?_⟩
        rw [hreports]
        simp [reportFailed, report, update, stateAfter]

theorem interpretLine_of_blank {fuel : Nat} {m : Machine} (hb : m.Bounded) :
    ∃ after, interpretLine (fuel + 1) "" m = .ok () after ∧ after.dictionary = m.dictionary ∧
      after.exiting = m.exiting := by
  have hfits : (encode "").length ≤ inputBufferSize := by decide
  have hline := @interpretLine_eq (serve (fuel + 1)) _ (fuel + 1) _ hb.size_eq hfits
  obtain ⟨toIn, hend⟩ := nextToken?_of_end (reading_withLine hb hfits) (bounded_withLine hb hfits)
    (by decide)
  refine ⟨_, hline.trans (interpretSource_of_end hend), ?_, ?_⟩ <;> simp only [readTo, withLine]

theorem interpretNumber_of_mark (compiling : Bool) (m : Machine) :
    ∃ fault, interpretNumber compiling "?" m = .error fault m := by
  have hnumber (base : Nat) : Number.read? base "?" = none := rfl
  cases hbase : m.base with
  | error fault =>
    have hask : ask Machine.base m = .error fault m := by rw [ask, hbase]
    exact ⟨fault, bind_of_error hask⟩
  | ok base =>
    refine ⟨.undefinedWord "?", (bind_of_ok (ask_of_ok hbase)).trans ?_⟩
    rw [hnumber]
    rfl

theorem findHeader?_of_empty {m : Machine} (hempty : m.dictionary.latest = 0) (name : String) :
    m.findHeader? name = .ok none := by
  have hsearch (memory : Memory) (visit : Nat → Except Fault (Option Nat)) :
      m.dictionary.search memory visit = .ok none := by
    rw [Dictionary.search, hempty]
    cases memory.size <;> rfl
  have hfind : m.dictionary.find? m.memory name = .ok none := hsearch _ _
  rw [findHeader?, hfind]
  rfl

theorem interpretLine_of_mark {fuel : Nat} {m : Machine} (hb : m.Bounded) (hempty : m.dictionary.latest = 0) :
    ∃ fault after, interpretLine (fuel + 1) "?" m = .error (.fault fault) after := by
  have hfits : (encode "?").length ≤ inputBufferSize := by decide
  have hloaded := bounded_withLine hb hfits
  obtain ⟨toIn, hnext, -, -⟩ := @nextToken?_of_reading _ _ "?" [] (reading_withLine hb hfits) hloaded (by decide)
  have hread : Machine.Bounded (readTo (withLine m (encode "?")) toIn) :=
    hloaded.withMemory (Memory.size_setCell _ _ _)
  have hfind := @findHeader?_of_empty (readTo (withLine m (encode "?")) toIn) hempty "?"
  obtain ⟨fault, hfault⟩ := interpretNumber_of_mark
    ((readTo (withLine m (encode "?")) toIn).memory.cellAt state != 0)
    (readTo (withLine m (encode "?")) toIn)
  have htoken := (@interpretToken_of_unknown (serve (fuel + 1)) _ _ hread hfind).trans (run_of_error hfault)
  exact ⟨fault, _, (interpretLine_eq hb.size_eq hfits).trans (interpretSource_of_error hnext htoken)⟩

theorem interpretText_of_mark {m : Machine} (hb : m.Bounded)
    (hempty : m.dictionary.latest = 0) (hrunning : m.exiting = false) :
    (∃ fault after, interpretText 1 "\n?" m = .error (.fault fault) after) ∧
      ∀ count after, ((Lines.ofText "\n?").take count).forM (interpretLine 1) m = .ok () after →
        after.exiting = false := by
  have hlines : Lines.ofText "\n?" = ["", "?"] := by decide
  obtain ⟨next, hblank, hdict, hexiting⟩ := @interpretLine_of_blank 0 _ hb
  have hnext : next.Bounded := Keeps.of_ok hb hblank
  obtain ⟨fault, failed, hunknown⟩ := @interpretLine_of_mark 0 _ hnext (hdict ▸ hempty)
  have hfails : ["", "?"].forM (interpretLine 1) m = .error (.fault fault) failed :=
    (bind_of_ok hblank).trans (bind_of_error hunknown)
  rw [interpretText, hlines]
  refine ⟨⟨fault, failed, hfails⟩, fun count after hrun => ?_⟩
  match count with
  | 0 =>
    obtain rfl : m = after := (EStateM.Result.ok.inj hrun).2
    exact hrunning
  | 1 =>
    have hfst : (["", "?"].take 1).forM (interpretLine 1) m = .ok () next := (bind_of_ok hblank).trans rfl
    rw [hfst] at hrun
    obtain rfl : next = after := (EStateM.Result.ok.inj hrun).2
    exact hexiting.trans hrunning
  | count + 2 =>
    rw [List.take_of_length_le (Nat.le_add_left 2 count), hfails] at hrun
    exact nomatch hrun

/-- Loaded by a machine that has no words, this text fails from a file as well. -/
theorem loadFile_sameWork_of_unknown :
    let machine := Machine.new ⟨[("f", .ok (.regular (Utf8.encode "\n?")))]⟩ false
    (∃ fault after, interpretText 1 "\n?" machine = .error (.fault fault) after) ∧
      EndTogether Machine.SameWork (interpretText 1 "\n?" machine) (loadFile 1 "f" machine) := by
  intro machine
  have hbounded : machine.Bounded := Machine.bounded_new _ _
  have hopen : machine.disk.openFile "f" = .ok (.regular (Utf8.encode "\n?")) := by
    simp [machine, Machine.new, Disk.openFile]
  have hrunning : machine.exiting = false := rfl
  have hempty : machine.dictionary.latest = 0 := rfl
  clear_value machine
  obtain ⟨hfails, hruns⟩ := interpretText_of_mark hbounded hempty hrunning
  exact ⟨hfails, (loadFile_sameWork hbounded (by decide) hopen hruns).1⟩

end Session

end ThreadedForth
