
import ThreadedForth.Proofs.Session.AppendOnly

/-!
# Unfinished definitions are never found

A header that `:` makes is smudged, and it stays so until a `;` has taken the marker with its token and has come to
its end. No other step touches the smudge of a header, so a definition that was given up stays out of sight, whatever
follows.
-/

namespace ThreadedForth

open Dictionary Header

/-! ### Flags -/

namespace Header

variable {flags : Cell}

theorem lacks_iff {mask : Cell} : lacks flags mask = true ↔ flags &&& mask = 0 := by
  rw [lacks, beq_iff_eq]

theorem lacks_smudged_of_cleared (flags : Cell) : lacks (flags &&& ~~~smudged) smudged = true := by
  have hnone : ~~~smudged &&& smudged = 0 := by decide
  rw [lacks_iff, Int32.and_assoc, hnone, Int32.and_zero]

theorem lacks_smudged_of_immediate (flags : Cell) : lacks (flags ||| immediate) smudged = lacks flags smudged := by
  have hnone : immediate.toBitVec &&& smudged.toBitVec = 0#32 := by decide
  have hsame : (flags ||| immediate) &&& smudged = flags &&& smudged := by
    apply Int32.toBitVec_inj.1
    rw [Int32.toBitVec_and, Int32.toBitVec_or, BitVec.and_or_distrib_right, hnone, BitVec.or_zero, Int32.toBitVec_and]
  rw [lacks, lacks, hsame]

theorem lacks_smudged_of_visible (hvisible : lacks flags (hidden ||| smudged) = true) :
    lacks flags smudged = true := by
  have hpart : (hidden ||| smudged) &&& smudged = smudged := by decide
  rw [lacks_iff] at hvisible
  rw [lacks_iff, ← hpart, ← Int32.and_assoc, hvisible, Int32.zero_and]

end Header

namespace Machine

/-- The header is not smudged. -/
def Uncovered (m : Machine) (header : Nat) : Prop :=
  lacks (m.memory.cellAt (flagsField header)) smudged = true

end Machine

namespace Moment

variable {entries revised : List Header} {markers later : List Marker} {before after : Moment} {header : Nat}

variable (hsound : Sound entries markers before)

include hsound

theorem Sound.not_uncovered_of_creates (hstep : before.Step after)
    (hcreates : before.Creates after header) : ¬ after.machine.Uncovered header := by
  obtain ⟨hprim, hold, hnew⟩ := hcreates
  have hmakes : DefiningWord.Makes smudged entries markers before.machine
      (stateAfter (DefiningWord.perform .colon) before.machine) := DefiningWord.perform_makes hsound.orderly rfl
  have hm : after.machine = stateAfter (DefiningWord.perform .colon) before.machine :=
    (hstep.of_prim? hprim).1.trans (Prim.stateAfter_complete _ _)
  rw [← hm] at hmakes
  rcases hmakes with hcalm | ⟨entry, later, hflags, -, hlater, -⟩
  · have hsame := (hsound.orderly.calm hcalm).hasHeader_iff.1 hnew
    exact absurd (hsound.orderly.hasHeader_iff.2 hsame) hold
  · obtain ⟨found, hfound, rfl⟩ := hlater.hasHeader_iff.1 hnew
    rcases List.mem_cons.1 hfound with rfl | hbefore
    · obtain ⟨nameAddress, -, -, hholds⟩ := hlater.lexicon.held found List.mem_cons_self
      rw [Machine.Uncovered, hholds.flags, hflags]
      decide
    · exact absurd (hsound.orderly.hasHeader_iff.2 ⟨found, hbefore, rfl⟩) hold

theorem Sound.flags_eq (hhdr : before.machine.HasHeader header)
    {area : Nat → Prop} (hev : Evolves area entries revised markers later before.machine after.machine)
    (harea : ∀ addr, InCell (flagsField header) addr → ¬ area addr) :
    after.machine.memory.cellAt (flagsField header) = before.machine.memory.cellAt (flagsField header) := by
  refine hev.cellAt_eq (fun addr hin => ?_) harea
  obtain ⟨hstart, hhere⟩ := hsound.orderly.header_bounds hhdr
  obtain ⟨hlow, hhigh⟩ := hin
  rw [flagsField] at hlow hhigh
  rw [size] at hhere
  exact .inl ⟨by omega, by omega⟩

/-- What `;` does to the smudge of a header. -/
theorem Sound.uncovered_iff_of_semicolon (hstep : before.Step after)
    (hprim : before.prim? = some (.defining .semicolon)) (hhdr : before.machine.HasHeader header) :
    after.machine.Uncovered header ↔ before.machine.Uncovered header ∨ before.Closes after (token header) := by
  have hmarks := hsound.orderly.markers_eq
  rcases hsound.semicolon hstep hprim with
    ⟨hfault, token, htoken, cleared, hcleared, hev, hvalue⟩ | ⟨hfault, later, -, hlater, hev⟩
  · obtain ⟨hother, hxt⟩ := hsound.orderly.hasHeader_ofToken (htoken ▸ List.mem_cons_self)
    have hafter := hcleared.markers_eq
    by_cases hsame : ofToken token = header
    · subst hsame
      have hcloses : before.Closes after (Header.token (ofToken token)) := by
        refine ⟨hprim, ?_, hfault⟩
        rw [hmarks, hafter, htoken, hxt]
      refine ⟨fun _ => .inr hcloses, fun _ => ?_⟩
      rw [Machine.Uncovered, hvalue]
      exact lacks_smudged_of_cleared _
    · have hapart := hsound.orderly.headers_apart hother hhdr
      have hflags : after.machine.memory.cellAt (flagsField header) =
          before.machine.memory.cellAt (flagsField header) := by
        refine hsound.flags_eq hhdr hev fun addr hin hchanged => ?_
        simp only [InCell, flagsField, size] at hin hchanged hapart
        omega
      rw [Machine.Uncovered, hflags]
      refine ⟨.inl, fun hany => hany.elim id fun hcloses => ?_⟩
      have htokens : [⟨.colon, token⟩] = (⟨.colon, Header.token header⟩ : Marker) :: after.machine.markers := by
        rw [← htoken, ← hmarks]
        exact hcloses.2.1
      simp only [List.cons.injEq, Marker.mk.injEq, true_and] at htokens
      exact absurd (by rw [htokens.1]; rfl) hsame
  · rw [Machine.Uncovered, hsound.flags_eq hhdr hev fun _ _ => id]
    exact ⟨.inl, fun hany => hany.elim id fun hcloses => absurd hcloses.2.2 hfault⟩

theorem Sound.uncovered_iff (hstep : before.Step after)
    (hev : Evolves (before.Alters after) entries revised markers later before.machine after.machine)
    (hhdr : before.machine.HasHeader header) :
    after.machine.Uncovered header ↔ before.machine.Uncovered header ∨ before.Closes after (token header) := by
  by_cases hprim : before.prim? = some (.defining .semicolon)
  · exact hsound.uncovered_iff_of_semicolon hstep hprim hhdr
  have hsmudge : after.machine.Uncovered header ↔ before.machine.Uncovered header := by
    rw [Machine.Uncovered, Machine.Uncovered]
    by_cases hchanged : ∃ addr, InCell (flagsField header) addr ∧ before.Alters after addr
    · obtain ⟨addr, hin, halters⟩ := hchanged
      have hbounds : header ≤ addr ∧ addr < header + size ∧ ¬ InCell (token header) addr ∧
          ¬ InCell (doesField header) addr := by
        simp only [InCell, flagsField, size, token, doesField] at hin ⊢
        omega
      rcases hsound.of_alters hhdr hbounds.1 hbounds.2.1 halters with
        ⟨hsemi, -⟩ | ⟨-, -, -, hvalue⟩ | ⟨-, -, hcode⟩
      · exact absurd hsemi hprim
      · rw [hvalue, lacks_smudged_of_immediate]
      · exact absurd hcode (not_or.2 hbounds.2.2)
    · rw [hsound.flags_eq hhdr hev fun addr hin halters => hchanged ⟨addr, hin, halters⟩]
  rw [hsmudge]
  exact ⟨.inl, fun hany => hany.elim id fun hcloses => absurd hcloses.1 hprim⟩

theorem Sound.uncovered_of_find? {name : String}
    (hfind : before.machine.dictionary.find? before.machine.memory name = .ok (some header)) :
    before.machine.Uncovered header := by
  rw [hsound.orderly.lexicon.find?_eq] at hfind
  obtain ⟨entry, hlook, rfl⟩ := Option.map_eq_some_iff.1 (Except.ok.inj hfind)
  obtain ⟨nameAddress, -, -, hholds⟩ := hsound.orderly.lexicon.held entry (mem_of_lookup hlook)
  have hvisible := List.find?_some hlook
  rw [Bool.and_eq_true] at hvisible
  rw [Machine.Uncovered, hholds.flags]
  exact lacks_smudged_of_visible hvisible.1

end Moment

namespace Run

variable {run : Run} {j k header : Nat}

theorem uncovered_iff (htame : run.Tame) (hkj : k < j) (hj : j ≤ run.last)
    (hcreates : (run.moment k).Creates (run.moment (k + 1)) header) :
    (run.moment j).machine.HasHeader header ∧ ((run.moment j).machine.Uncovered header ↔
      ∃ m, k < m ∧ m < j ∧ (run.moment m).Closes (run.moment (m + 1)) (token header)) := by
  induction hkj with
  | refl =>
    obtain ⟨entries, markers, hsound⟩ := run.sound htame (by omega : k ≤ run.last)
    have hcovered := hsound.not_uncovered_of_creates (run.step k hj) hcreates
    refine ⟨hcreates.2.2, fun huncovered => absurd huncovered hcovered, fun ⟨m, hkm, hmk, _⟩ => ?_⟩
    omega
  | @step n hkn ih =>
    obtain ⟨hhdr, hiff⟩ := ih (Nat.le_of_lt hj)
    obtain ⟨entries, markers, hsound⟩ := run.sound htame (Nat.le_of_lt hj)
    obtain ⟨revised, later, hrevised, hev⟩ := hsound.step (htame n hj) (run.step n hj)
    refine ⟨hev.hasHeader hsound.orderly hrevised.orderly hhdr, ?_⟩
    rw [hsound.uncovered_iff (run.step n hj) hev hhdr, hiff]
    constructor
    · rintro (⟨m, hkm, hmn, hcloses⟩ | hcloses)
      · exact ⟨m, hkm, Nat.lt_succ_of_lt hmn, hcloses⟩
      · exact ⟨n, hkn, Nat.lt_succ_self n, hcloses⟩
    · rintro ⟨m, hkm, hmn, hcloses⟩
      rcases Nat.lt_succ_iff_lt_or_eq.1 hmn with hlt | rfl
      · exact .inl ⟨m, hkm, hlt, hcloses⟩
      · exact .inr hcloses

end Run

/-- A half-built definition is never visible. In a run where no word stores into memory and no code is taken back,
the smudge of a header that `:` has made is gone exactly if a `;` has taken the marker with its token and has ended
without a fault since then. So a word that is found is one whose definition was completed. -/
theorem Run.smudge_iff_closed (run : Run) (htame : run.Tame) {j k header : Nat} (hkj : k < j) (hj : j ≤ run.last)
    (hcreates : (run.moment k).Creates (run.moment (k + 1)) header) :
    ((run.moment j).machine.Uncovered header ↔
      ∃ m, k < m ∧ m < j ∧ (run.moment m).Closes (run.moment (m + 1)) (Header.token header)) ∧
    ∀ name, (run.moment j).machine.dictionary.find? (run.moment j).machine.memory name = .ok (some header) →
      ∃ m, k < m ∧ m < j ∧ (run.moment m).Closes (run.moment (m + 1)) (Header.token header) := by
  have hiff := (run.uncovered_iff htame hkj hj hcreates).2
  refine ⟨hiff, fun name hfind => hiff.1 ?_⟩
  obtain ⟨entries, markers, hsound⟩ := run.sound htame hj
  exact hsound.uncovered_of_find? hfind

/-- A word is out of sight once `:` has made its header, and in sight once `;` has ended it. -/
theorem Run.smudge_iff_closed_of_definition : ∃ (run : Run) (k header : Nat), run.Tame ∧ k < run.last ∧
    (run.moment k).Creates (run.moment (k + 1)) header ∧ ¬ (run.moment (k + 1)).machine.Uncovered header ∧
    (run.moment run.last).machine.Uncovered header := by
  obtain ⟨run, k, m, header, htame, hkm, hm, hcreates, hcloses⟩ := Run.exists_definition
  have hk : k < run.last := by omega
  refine ⟨run, k, header, htame, hk, hcreates, fun huncovered => ?_, ?_⟩
  · obtain ⟨other, hlow, hhigh, -⟩ := (run.smudge_iff_closed htame (Nat.lt_succ_self k) hk hcreates).1.1 huncovered
    omega
  · exact (run.smudge_iff_closed htame hk (Nat.le_refl _) hcreates).1.2 ⟨m, hkm, hm, hcloses⟩

end ThreadedForth
