
import ThreadedForth.Proofs.Interpreter.Source
import ThreadedForth.Proofs.Machine.Reachable

/-!
# The words of the source

Parsing never fails and never leaves the source, whatever a program has stored in `>IN`. Words that are taken one after
the other from the start of the source are its maximal runs of bytes that are no blanks, all of them and in order, and
then there are no more. A line is a well-formed text, so its words are parts of it as they stand.
-/

namespace ThreadedForth

open WordM List Text

/-! ### What is parsed -/

/-- A text was parsed. It lies inside the source, and the offset has moved on from where it was, as far as the end of the
source at most. Nothing else has changed. -/
structure Machine.Parsed (m : Machine) (text : Source) (after : Machine) : Prop where
  low : m.source.address ≤ text.address
  high : text.address + text.length ≤ m.source.address + m.source.length
  toIn : ∃ place : Nat, (after.memory.cellAt Layout.toIn).toInt = place ∧ m.offset ≤ place ∧
    place ≤ m.source.length
  rest : after = m.readTo (after.memory.cellAt Layout.toIn)

namespace Machine.Legible

variable {m : Machine}

theorem parsed (hleg : m.Legible) {start length : Nat} (hstart : m.offset ≤ start)
    (hlen : start + length ≤ m.source.length) :
    m.Parsed ⟨m.source.address + start, length⟩
      (m.readTo (Cell.ofNat (min (start + (length + 1)) m.source.length))) := by
  have hsmall := hleg.length_lt
  refine ⟨Nat.le_add_right _ _, ?_, ⟨min (start + (length + 1)) m.source.length, ?_, ?_, Nat.min_le_right _ _⟩, ?_⟩
  · simp only
    omega
  · rw [hleg.cellAt_readTo, Cell.toInt_ofNat (by omega)]
  · have hoff := m.offset_le
    omega
  · rw [hleg.cellAt_readTo]

theorem parse_parsed (hleg : m.Legible) (delimiter : UInt8) : ∃ text after,
    parse delimiter m = .ok text after ∧ m.Parsed text after ∧
      text.address = m.source.address + m.offset ∧
      after.memory.bytesAt text.address text.length = m.unread.takeWhile (· != delimiter) := by
  have hoff := m.offset_le
  have hunread := hleg.length_unread
  have hprefix : m.unread.takeWhile (· != delimiter) <+: m.unread := takeWhile_prefix _
  have hlen := hprefix.length_le
  refine ⟨_, _, parse_eq delimiter hleg, hleg.parsed (Nat.le_refl _) (by omega), rfl, ?_⟩
  rw [hleg.bytesAt_readTo _ (Nat.le_add_right _ _) (by simp only; omega)]
  refine (Machine.bytesAt_source hleg.inside (by simp only; omega)).trans ?_
  exact (prefix_iff_eq_take.1 hprefix).symm

theorem parseName_parsed (hleg : m.Legible) : ∃ text after blanks,
    parseName m = .ok text after ∧ m.Parsed text after ∧
      text.address = m.source.address + (m.offset + blanks) ∧
      (∀ place < blanks, Text.OpenAt m.unread place) ∧
      (Text.IsRun m.unread blanks text.length ∨ text.length = 0 ∧ ∀ place, Text.OpenAt m.unread place) := by
  have hoff := m.offset_le
  have hunread := hleg.length_unread
  have hwithin := skipped_add_length_le m.unread
  refine ⟨_, _, skipped m.unread, parseName_eq hleg, hleg.parsed (Nat.le_add_right _ _) (by omega), rfl,
    fun place hplace => openAt_of_lt_skipped hplace, ?_⟩
  by_cases hword : nextWord m.unread = []
  · exact .inr ⟨by rw [hword]; rfl, openAt_of_nextWord_nil hword⟩
  · exact .inl (isRun_nextWord hword)

end Machine.Legible

/-! ### Word after word -/

/-- Take a number of words from the source. -/
def WordM.nextTokens : Nat → WordM (List (Option String))
  | 0 => return []
  | count + 1 => do
    let token ← nextToken?
    return token :: (← nextTokens count)

theorem WordM.nextTokens_eq {m : Machine} (hleg : m.Legible) (count : Nat) : ∃ after,
    nextTokens count m =
      .ok ((List.range count).map fun index => (words m.unread)[index]?.map Utf8.decodeLossy) after := by
  induction count generalizing m with
  | zero => exact ⟨m, rfl⟩
  | succ count ih =>
    have hwords := hleg.words_afterWord
    obtain ⟨after, hrest⟩ := @ih m.afterWord (hleg.readTo _)
    refine ⟨after, (bind_of_ok (nextToken?_eq hleg)).trans ((bind_of_ok hrest).trans ?_)⟩
    rw [range_succ_eq_map, map_cons, map_map, hwords]
    refine congrArg (fun tokens => EStateM.Result.ok (_ :: tokens) after) (map_congr_left fun index _ => ?_)
    rw [Function.comp_apply, Nat.succ_eq_add_one, getElem?_tail]

/-- Parsing is exact and stays inside the source, whatever `>IN` holds; from the start of the source, words are taken as
its maximal runs, in order and none left out; and the words of a line are parts of it as they stand. -/
theorem tokenising_exact (machine : Machine) (hsize : machine.memory.size = Layout.memorySize) :
    (machine.Legible →
      (∀ delimiter, ∃ text after, parse delimiter machine = .ok text after ∧ machine.Parsed text after ∧
        text.address = machine.source.address + machine.offset ∧
        after.memory.bytesAt text.address text.length = machine.unread.takeWhile (· != delimiter)) ∧
      (∃ text after blanks, parseName machine = .ok text after ∧ machine.Parsed text after ∧
        text.address = machine.source.address + (machine.offset + blanks) ∧
        (∀ place < blanks, Text.OpenAt machine.unread place) ∧
        (Text.IsRun machine.unread blanks text.length ∨
          text.length = 0 ∧ ∀ place, Text.OpenAt machine.unread place)) ∧
      (machine.memory.cellAt Layout.toIn = 0 → ∃ runs : List (Nat × Nat),
        runs.Pairwise (fun run next => run.1 + run.2 < next.1) ∧
        (∀ start length, (start, length) ∈ runs ↔ Text.IsRun machine.sourceBytes start length) ∧
        ∀ count, ∃ after, nextTokens count machine =
          .ok ((List.range count).map fun index =>
            runs[index]?.map fun run => Utf8.decodeLossy (Text.slice machine.sourceBytes run)) after)) ∧
    ∀ (line : String) (serve : Serve) (fuel : Nat), (Utf8.encode line).length ≤ Layout.inputBufferSize →
      ∃ started, Interpreter.interpretLine serve fuel line machine = Interpreter.interpretSource serve fuel started ∧
        started.Legible ∧ started.memory.cellAt Layout.toIn = 0 ∧ started.sourceBytes = Utf8.encode line ∧
        ∀ start length, Text.IsRun (Utf8.encode line) start length → ∃ before token behind : String,
          line = before ++ token ++ behind ∧ (Utf8.encode before).length = start ∧
            Text.slice (Utf8.encode line) (start, length) = Utf8.encode token ∧
            Utf8.decodeLossy (Text.slice (Utf8.encode line) (start, length)) = token := by
  refine ⟨fun hlegible => ⟨hlegible.parse_parsed, hlegible.parseName_parsed, fun htoIn => ?_⟩,
    fun line serve fuel hline => ?_⟩
  · obtain ⟨runs, hsorted, hruns, hwords⟩ := Text.exists_runs machine.sourceBytes
    refine ⟨runs, hsorted, hruns, fun count => ?_⟩
    obtain ⟨after, htokens⟩ := nextTokens_eq hlegible count
    have hoffset : machine.offset = 0 := Machine.offset_eq htoIn (Nat.zero_le _) hlegible.length_lt
    refine ⟨after, htokens.trans ?_⟩
    rw [Machine.unread, hoffset, List.drop_zero, ← hwords]
    simp only [List.getElem?_map, Option.map_map]
    rfl
  · refine ⟨_, Interpreter.interpretLine_eq hsize hline, Interpreter.legible_withLine hsize hline,
      Interpreter.toIn_withLine hsize _, Interpreter.bytesAt_withLine hsize hline, fun start length hrun => ?_⟩
    obtain ⟨before, token, behind, hparts, hstart, htoken⟩ := hrun.exists_text
    exact ⟨before, token, behind, hparts, hstart, htoken, by rw [htoken, Utf8.decodeLossy_encode]⟩

/-- The middle word of a line. -/
theorem tokenising_exact_middle :
    let machine := Machine.new .empty false
    machine.memory.size = Layout.memorySize ∧ Text.IsRun (Utf8.encode "1 dup +") 2 3 ∧
      ∃ started before behind, Interpreter.interpretLine (Interpreter.serve 9) 9 "1 dup +" machine =
        Interpreter.interpretSource (Interpreter.serve 9) 9 started ∧
        (∃ text after, parseName started = .ok text after ∧ started.Parsed text after) ∧
        "1 dup +" = before ++ "dup" ++ behind := by
  intro machine
  have hsize : machine.memory.size = Layout.memorySize := (Machine.bounded_new .empty false).size_eq
  have hbytes : Utf8.encode "1 dup +" = [49, 32, 100, 117, 112, 32, 43] := by decide
  have hrun : Text.IsRun (Utf8.encode "1 dup +") 2 3 := by
    have hnext : Text.IsRun [100, 117, 112, 32, 43] 0 3 := Text.isRun_nextWord (by decide)
    refine @Text.IsRun.of_drop _ 0 3 2 (hbytes ▸ hnext) fun byte hbyte => ?_
    rw [hbytes] at hbyte
    cases hbyte
    rfl
  obtain ⟨started, hline, hlegible, -, -, hruns⟩ :=
    (tokenising_exact machine hsize).2 "1 dup +" (Interpreter.serve 9) 9 (by decide)
  obtain ⟨before, token, behind, hparts, -, -, htoken⟩ := hruns 2 3 hrun
  obtain ⟨text, after, -, hparse, hparsed, -⟩ := ((tokenising_exact started hlegible.size).1 hlegible).2.1
  rw [show token = "dup" by rw [← htoken]; decide] at hparts
  exact ⟨hsize, hrun, started, before, behind, hline, ⟨text, after, hparse, hparsed⟩, hparts⟩

end ThreadedForth
