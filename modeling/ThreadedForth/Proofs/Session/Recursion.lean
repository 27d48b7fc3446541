
import ThreadedForth.Proofs.Session.AppendOnly

/-!
# Recursion

`RECURSE` compiles a call to the newest word. That is the definition which is being compiled for as long as no header
has been entered since `:` or `:NONAME`, and no longer: `CREATE` and its kin may be executed inside a definition.
-/

namespace ThreadedForth

open Dictionary WordM

namespace Moment

/-- The step performs a `:` or `:NONAME` that opens a definition with the token. -/
def Opens (before after : Moment) (token : Nat) : Prop :=
  (before.prim? = some (.defining .colon) ∨ before.prim? = some (.defining .nameless)) ∧
    ¬ before.machine.HasHeader (Header.ofToken token) ∧ ⟨.colon, token⟩ ∈ after.machine.markers

variable {entries : List Header} {markers : List Marker} {before after : Moment} {token : Nat}

theorem Sound.latest_of_opens (hsound : Sound entries markers before) (hstep : before.Step after)
    (hopens : before.Opens after token) : token = Header.token after.machine.dictionary.latest := by
  obtain ⟨hprim, hold, hmark⟩ := hopens
  have hm {word : DefiningWord} (hprim : before.prim? = some (.defining word)) :
      after.machine = stateAfter word.perform before.machine :=
    (hstep.of_prim? hprim).1.trans (Prim.stateAfter_complete _ _)
  have hmakes : ∃ flags, DefiningWord.Makes flags entries markers before.machine after.machine := by
    rcases hprim with hprim | hprim
    · exact ⟨_, hm hprim ▸ DefiningWord.perform_makes hsound.orderly rfl⟩
    · exact ⟨_, hm hprim ▸ DefiningWord.perform_makes hsound.orderly rfl⟩
  have hnew : ⟨.colon, token⟩ ∉ markers := fun hin => hold (hsound.orderly.hasHeader_ofToken hin).1
  obtain ⟨flags, hcalm | ⟨entry, later, -, hlatest, hlater, -, hmarks⟩⟩ := hmakes
  · rw [(hsound.orderly.calm hcalm).markers_eq] at hmark
    exact absurd hmark hnew
  · rw [hlater.markers_eq] at hmark
    rcases hmarks with rfl | ⟨-, rfl⟩
    · exact absurd hmark hnew
    · cases List.mem_singleton.1 hmark
      rw [hlatest, Header.xt]

theorem Step.recurse (hstep : before.Step after) (hprim : before.prim? = some (.defining .recurse))
    (hfault : after.fault = none) :
    after.machine = { before.machine with
      dictionary := { before.machine.dictionary with here := before.machine.dictionary.here + 4 }
      memory := before.machine.memory.setCell before.machine.dictionary.here
        (Cell.ofNat (Header.token before.machine.dictionary.latest)) } := by
  obtain ⟨request, hperf⟩ := (hstep.of_prim? hprim).2.1 hfault
  obtain ⟨_, _, hword, hdone⟩ := of_bind_eq_ok hperf
  cases hdone
  obtain ⟨_, _, hlatest, hcomma⟩ := of_bind_eq_ok hword
  cases hlatest
  rcases before.machine.dictionary.comma_cases (Cell.ofNat (Header.token before.machine.dictionary.latest))
    before.machine.memory with ⟨fault, herror⟩ | ⟨-, hok⟩
  · rw [compileToken, WordM.comma, onDictionary, bind_of_error herror] at hcomma
    cases hcomma
  · rw [compileToken, WordM.comma, onDictionary, bind_of_ok hok] at hcomma
    exact (EStateM.Result.ok.inj hcomma).2.symm

end Moment

namespace Run

variable {run : Run} {i j : Nat}

theorem hasHeader_or_lt (htame : run.Tame) (hij : i ≤ j) (hj : j ≤ run.last) :
    (run.moment j).machine.HasHeader (run.moment i).machine.dictionary.latest ∧
      ∀ header, (run.moment j).machine.HasHeader header →
        (run.moment i).machine.HasHeader header ∨ (run.moment i).machine.dictionary.latest < header := by
  obtain ⟨entries, markers, hsound⟩ := run.sound htame (Nat.le_trans hij hj)
  refine run.lasting htame (fun moment => moment.machine.HasHeader (run.moment i).machine.dictionary.latest ∧
    ∀ header, moment.machine.HasHeader header →
      (run.moment i).machine.HasHeader header ∨ (run.moment i).machine.dictionary.latest < header) ?_ hij hj
    ⟨hsound.orderly.hasHeader_latest hsound.nonempty, fun _ => .inl⟩
  intro before after entries revised markers later _ hbefore hafter hev ⟨hlatest, hold⟩
  refine ⟨hev.hasHeader hbefore.orderly hafter.orderly hlatest, fun header hhdr => ?_⟩
  obtain ⟨entry, hentry, rfl⟩ := hafter.orderly.hasHeader_iff.1 hhdr
  rcases hev.headers entry hentry with hkept | hnew
  · exact hold _ (hbefore.orderly.hasHeader_iff.2 hkept)
  · have hbelow := (hbefore.orderly.header_bounds hlatest).2
    rw [Header.size] at hbelow
    exact .inr (by omega)

theorem latest_eq_iff (htame : run.Tame) (hij : i ≤ j) (hj : j ≤ run.last) :
    (run.moment j).machine.dictionary.latest = (run.moment i).machine.dictionary.latest ↔
      ∀ header, (run.moment j).machine.HasHeader header → (run.moment i).machine.HasHeader header := by
  obtain ⟨hlatest, hheaders⟩ := run.hasHeader_or_lt htame hij hj
  obtain ⟨_, _, hfst⟩ := run.sound htame (Nat.le_trans hij hj)
  obtain ⟨_, _, hlast⟩ := run.sound htame hj
  refine ⟨fun hsame header hhdr => ?_, fun hall => ?_⟩
  · have hle := hlast.orderly.header_le_latest hhdr
    exact (hheaders header hhdr).resolve_right (by omega)
  · have hnewest := hall _ (hlast.orderly.hasHeader_latest hlast.nonempty)
    exact Nat.le_antisymm (hfst.orderly.header_le_latest hnewest) (hlast.orderly.header_le_latest hlatest)

end Run

/-- `RECURSE` means the definition that is being compiled exactly if no header has been entered since `:` or `:NONAME`.
In a run where no word stores into memory and no code is taken back, a `RECURSE` that ends without a fault appends one
cell and does nothing else, and the cell is the token of the definition if and only if all headers that are there were
there when the definition was opened. -/
theorem Run.recurse_appends (run : Run) (htame : run.Tame) {j k token : Nat} (hkj : k < j) (hj : j < run.last)
    (hopens : (run.moment k).Opens (run.moment (k + 1)) token)
    (hprim : (run.moment j).prim? = some (.defining .recurse)) (hfault : (run.moment (j + 1)).fault = none) :
    ∃ called, (run.moment (j + 1)).machine = { (run.moment j).machine with
        dictionary := { (run.moment j).machine.dictionary with here := (run.moment j).machine.dictionary.here + 4 }
        memory := (run.moment j).machine.memory.setCell (run.moment j).machine.dictionary.here (Cell.ofNat called) } ∧
      (called = token ↔ ∀ header, (run.moment j).machine.HasHeader header →
        (run.moment (k + 1)).machine.HasHeader header) := by
  obtain ⟨_, _, hsound⟩ := run.sound htame (Nat.le_of_lt (Nat.lt_trans hkj hj))
  refine ⟨_, (run.step j hj).recurse hprim hfault, ?_⟩
  rw [hsound.latest_of_opens (run.step k (Nat.lt_trans hkj hj)) hopens,
    ← run.latest_eq_iff htame hkj (Nat.le_of_lt hj), Header.token, Header.token, Nat.add_right_cancel_iff]

/-- A word that calls itself. -/
theorem Run.recurse_appends_itself : ∃ (run : Run) (k j : Nat) (entry : Header), run.Tame ∧ k < j ∧ j < run.last ∧
    (run.moment k).Opens (run.moment (k + 1)) entry.xt ∧ (run.moment j).prim? = some (.defining .recurse) ∧
    (run.moment (j + 1)).fault = none ∧ ∃ called, (run.moment (j + 1)).machine.memory =
        (run.moment j).machine.memory.setCell (run.moment j).machine.dictionary.here (Cell.ofNat called) ∧
      (called = entry.xt ↔ ∀ header, (run.moment j).machine.HasHeader header →
        (run.moment (k + 1)).machine.HasHeader header) := by
  have hline : OpeningLine ": x recurse" "recurse" := ⟨by decide, by decide⟩
  have hcalls : Calls builtin.1 "recurse" (.defining .recurse) true := calls_builtin (by decide) (by decide)
  obtain ⟨run, k, j, entry, htame, hkj, hj, hcreates, hbegun, hprim, -, hfault⟩ :=
    Run.exists_performed hline hcalls (fun _ => trivial) fun entry moment hbegun => by
      obtain ⟨entries, draft, hdrafting, -, hroom⟩ := hbegun.draft
      have hcomma := performs_comma (Cell.ofNat (Header.token moment.machine.dictionary.latest)) _ hdrafting.site
      rw [Draft.emit, if_neg (Nat.not_lt.2 hroom)] at hcomma
      obtain ⟨after, hok, -⟩ := hcomma
      exact ⟨after, bind_of_ok hok⟩
  have hopens : (run.moment k).Opens (run.moment (k + 1)) entry.xt :=
    ⟨.inl hcreates.1, hcreates.2.1, by rw [hbegun.markers_eq]; exact List.mem_singleton_self _⟩
  obtain ⟨called, hmachine, hiff⟩ := run.recurse_appends htame hkj hj hopens hprim hfault
  exact ⟨run, k, j, entry, htame, hkj, hj, hopens, hprim, hfault, called, by rw [hmachine], hiff⟩

end ThreadedForth
