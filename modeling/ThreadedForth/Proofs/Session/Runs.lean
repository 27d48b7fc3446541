
import ThreadedForth.Proofs.Compiler.Upkeep
import ThreadedForth.Proofs.Interpreter.Moments
import ThreadedForth.Proofs.Session.Prelude

/-!
# What the moments of a run have in common

In a run whose words are tame every moment is in order: the dictionary holds a chain of entries, the markers on the
control stack carry what their tags say, and a line that is to be put back fits into the input buffer. A step from
one moment to the next appends, or does what its word is allowed to do to a header or to an open branch.
-/

namespace ThreadedForth

open Dictionary WordM Layout Utf8 Header Interpreter Job List

/-! ### Headers -/

/-- A header stands in the dictionary. -/
def Machine.HasHeader (m : Machine) (header : Nat) : Prop :=
  ∃ headers, m.dictionary.headers m.memory = .ok headers ∧ header ∈ headers

variable {entries : List Header} {m after : Machine} {token line : String} {entry : Header}

theorem Lexicon.hasHeader_iff (hlex : Lexicon entries m)
    {header : Nat} : m.HasHeader header ↔ ∃ entry ∈ entries, entry.address = header := by
  rw [Machine.HasHeader, Represents.headers_eq hlex]
  simp

namespace Orderly

variable {entries : List Header} {markers : List Marker} {m : Machine} {header other : Nat}

variable (hord : Orderly entries markers [] m)

include hord

theorem hasHeader_iff : m.HasHeader header ↔ ∃ entry ∈ entries, entry.address = header :=
  hord.lexicon.hasHeader_iff

theorem seats : Seated entries m.dictionary.here markers := by
  simpa using hord.seated

theorem header_bounds (hhdr : m.HasHeader header) :
    dictionaryStart ≤ header ∧ header + size ≤ m.dictionary.here :=
  hord.header_inside (mem_map.2 (hord.hasHeader_iff.1 hhdr))

theorem headers_apart (hhdr : m.HasHeader header) (hother : m.HasHeader other) :
    header = other ∨ header + size ≤ other ∨ other + size ≤ header := by
  obtain ⟨entry, hentry, rfl⟩ := hord.hasHeader_iff.1 hhdr
  obtain ⟨found, hfound, rfl⟩ := hord.hasHeader_iff.1 hother
  have hapart : entries.Pairwise fun newer older => newer.address = older.address ∨
      newer.address + size ≤ older.address ∨ older.address + size ≤ newer.address :=
    hord.lexicon.descending.imp fun hbelow => .inr (.inr hbelow)
  exact List.Pairwise.forall_of_forall_of_flip (fun _ _ => .inl rfl) hapart (hapart.imp fun hany => hany.imp Eq.symm Or.symm) hentry
    hfound

theorem hasHeader_latest (hents : entries ≠ []) : m.HasHeader m.dictionary.latest :=
  hord.hasHeader_iff.2 (mem_map.1 (hord.latest_mem hents))

theorem header_le_latest (hhdr : m.HasHeader header) : header ≤ m.dictionary.latest := by
  obtain ⟨entry, hentry, rfl⟩ := hord.hasHeader_iff.1 hhdr
  have hlatest := Represents.latest_eq hord.lexicon
  have hdesc := hord.lexicon.descending
  cases entries with
  | nil => cases hentry
  | cons newest older =>
    rw [hlatest]
    rcases List.mem_cons.1 hentry with rfl | holder
    · exact Nat.le_refl _
    · exact Nat.le_of_add_right_le (rel_of_pairwise_cons hdesc holder)

theorem hasHeader_ofToken {token : Nat} (hmark : ⟨.colon, token⟩ ∈ markers) :
    m.HasHeader (ofToken token) ∧ Header.token (ofToken token) = token := by
  obtain ⟨entry, hentry, hxt⟩ := hord.seats.colons _ hmark rfl
  obtain rfl : entry.xt = token := hxt
  exact ⟨hord.hasHeader_iff.2 ⟨entry, hentry, rfl⟩, rfl⟩

end Orderly

/-! ### Jobs -/

namespace Job

/-- A line that is to be put back fits into the input buffer. -/
def Fits : Job → Prop
  | leave _ bytes => bytes.length ≤ inputBufferSize
  | _ => True

/-- The primitive that a job performs. -/
def prim? (m : Machine) : Job → Option Prim
  | dispatch xt =>
    match m.memory.readCell xt with
    | .ok cell =>
      match Code.ofCell? cell with
      | some (.prim prim) => some prim
      | _ => none
    | .error _ => none
  | _ => none

variable {m after : Machine} {job : Job}

theorem perform_of_prim? (hprim : job.prim? m = some prim) :
    job.perform m = (do return (← prim.perform).toList.map serve) m := by
  cases job with
  | dispatch xt =>
    rw [prim?] at hprim
    split at hprim
    · next cell hread =>
      have hask : readCell xt m = .ok cell m := ask_of_ok hread
      refine Eq.trans (bind_of_ok hask) ?_
      split at hprim
      · next found hcode =>
        cases hprim
        rw [hcode, runCode]
      · cases hprim
    · cases hprim
  | _ => cases hprim

theorem keeps_runCode {code : Option Code} (hcode : ∀ prim, code ≠ some (.prim prim)) (xt : Nat) :
    Keeps m.Calm (runCode xt code) := by
  match code with
  | some .colon => exact Parallel.bind _ _
  | some .pushBody => exact Parallel.bind _ _
  | some .pushCell => exact Parallel.bind _ _
  | some .does =>
    unfold runCode
    infer_instance
  | some (.prim prim) => exact absurd rfl (hcode prim)
  | none => exact Parallel.throw _

instance (readers : List Reader) : Keeps m.Calm (update fun m => { m with readers }) :=
  keeps_calm_update fun _ => ⟨rfl, rfl, rfl, rfl, rfl⟩

theorem keeps_leaveFile (readers : List Reader) {bytes : List UInt8} (hfits : bytes.length ≤ inputBufferSize) :
    Keeps m.Calm (leaveFile readers bytes) := by
  have : Keeps m.Calm (onMemory (Memory.writeBytes inputBuffer bytes)) := Steady.fillInput hfits
  unfold leaveFile
  infer_instance

theorem keeps_cleanUp (hfits : job.Fits) (fault : Fault) : Keeps m.Calm (job.cleanUp fault) := by
  cases job with
  | leave readers bytes =>
    have hleave := @keeps_leaveFile m readers bytes hfits
    unfold cleanUp
    refine Parallel.next fun found => ?_
    cases found <;> infer_instance
  | _ =>
    unfold cleanUp
    infer_instance

/-- A job that does not dispatch only appends. -/
theorem keeps_perform (hfits : job.Fits) (hjob : ∀ xt, job ≠ dispatch xt) : Keeps m.Calm job.perform := by
  cases job with
  | dispatch xt => exact absurd rfl (hjob xt)
  | serve request =>
    cases request <;> (simp only [perform]; infer_instance)
  | source =>
    simp only [perform]
    refine Parallel.next fun found => ?_
    cases found <;> infer_instance
  | token name =>
    simp only [perform]
    refine Parallel.next fun compiling => ?_
    refine Parallel.next fun found => ?_
    cases found <;> infer_instance
  | lines lines =>
    cases lines with
    | nil => exact Parallel.pure _
    | cons first rest =>
      simp only [perform]
      cases first <;> infer_instance
  | line text =>
    simp only [perform]
    by_cases hlong : inputBufferSize < (encode text).length
    · simp only [if_pos hlong]
      exact .of fun _ hcalm => hcalm
    · have : Keeps m.Calm (onMemory (Memory.writeBytes inputBuffer (encode text))) :=
        Steady.fillInput (Nat.not_lt.1 hlong)
      simp only [if_neg hlong]
      infer_instance
  | leave readers bytes =>
    have := @keeps_leaveFile m readers bytes hfits
    simp only [perform]
    infer_instance
  | _ =>
    simp only [perform]
    infer_instance

theorem calm (hb : m.Bounded) (hfits : job.Fits) (hprim : job.prim? m = none) : m.Calm (stateAfter job.perform m) := by
  have hrefl : m.Calm m := .refl hb
  by_cases hdisp : ∃ xt, job = dispatch xt
  · obtain ⟨xt, rfl⟩ := hdisp
    cases hread : m.memory.readCell xt with
    | error fault =>
      have hask : readCell xt m = .error fault m := by rw [readCell, ask, hread]
      have hends : (dispatch xt).perform m = .error fault m := bind_of_error hask
      rw [stateAfter_of_error hends]
      exact hrefl
    | ok cell =>
      have hask : readCell xt m = .ok cell m := ask_of_ok hread
      have hcode : ∀ prim, Code.ofCell? cell ≠ some (.prim prim) := by
        intro prim hcode
        rw [prim?, hread] at hprim
        simp only [hcode] at hprim
        cases hprim
      have hruns : (dispatch xt).perform m = runCode xt (Code.ofCell? cell) m := bind_of_ok hask
      rw [stateAfter, hruns]
      exact (keeps_runCode hcode xt).keeps m hrefl
  · exact (keeps_perform hfits fun xt hjob => hdisp ⟨xt, hjob⟩).keeps m hrefl

/-- The jobs that an action leaves fit. -/
def YieldsFit (action : WordM (List Job)) : Prop :=
  ∀ before after jobs, action before = .ok jobs after → ∀ next ∈ jobs, next.Fits

namespace YieldsFit

variable {α : Type}

theorem bind (first : WordM α) {rest : α → WordM (List Job)} (hrest : ∀ answer, YieldsFit (rest answer)) :
    YieldsFit (first >>= rest) := by
  intro before after jobs hbind
  obtain ⟨answer, middle, -, hanswer⟩ := of_bind_eq_ok hbind
  exact hrest answer middle after jobs hanswer

theorem pure {jobs : List Job} (hjobs : ∀ next ∈ jobs, next.Fits) : YieldsFit (Pure.pure jobs) := by
  intro before after jobs hpure
  cases hpure
  exact hjobs

theorem throw (fault : Fault) : YieldsFit (MonadExcept.throw fault) := by
  intro before after jobs hthrow
  cases hthrow

theorem whole (action : WordM α) : YieldsFit (do let _ ← action; return []) :=
  bind action fun _ => pure fun _ hnext => nomatch hnext

end YieldsFit

theorem yieldsFit_runCode (xt : Nat) (code : Option Code) : YieldsFit (runCode xt code) := by
  match code with
  | some .colon => exact .whole _
  | some .pushBody => exact .whole _
  | some .pushCell => exact .bind _ fun _ => .whole _
  | some .does => exact .bind _ fun _ => .bind _ fun _ => .bind _ fun _ => .bind _ fun _ => .bind _ fun _ => .whole _
  | some (.prim prim) =>
    refine .bind _ fun request => .pure fun next hnext => ?_
    obtain ⟨request, -, rfl⟩ := mem_map.1 hnext
    trivial
  | none => exact .throw _

theorem length_of_readBytes {bytes : List UInt8} {start length : Nat}
    (hread : readBytes start length m = .ok bytes after) : bytes.length = length := by
  obtain ⟨hbytes, -⟩ := of_ask_eq_ok hread
  obtain ⟨_, hcheck, hpure⟩ := of_question_eq_ok hbytes
  cases hpure
  exact Memory.length_bytesAt _ _ _ (Memory.of_check_eq_ok hcheck)

/-- The jobs that a job leaves fit. -/
theorem yieldsFit (job : Job) : YieldsFit job.perform := by
  cases job with
  | dispatch xt => exact .bind _ fun cell => yieldsFit_runCode xt _
  | thread =>
    refine .bind _ fun ip => ?_
    split
    · exact .pure (by simp)
    · exact .bind _ fun xt => .pure (by simp [Fits])
  | putBack ip => exact .whole _
  | serve request =>
    cases request with
    | execute xt => exact .bind _ fun ip => .bind _ fun _ => .pure (by simp [Fits])
    | evaluate text => exact .bind _ fun _ => .pure (by simp [Fits])
    | load path =>
      refine .bind _ fun file => .bind _ fun _ before after jobs hrest => ?_
      obtain ⟨bytes, _, hread, hrest⟩ := of_bind_eq_ok hrest
      refine YieldsFit.bind _ (fun _ => .bind _ fun readers => .bind _ fun _ => .pure ?_) _ after jobs hrest
      have hfits : bytes.length ≤ inputBufferSize := Nat.le_of_eq (length_of_readBytes hread)
      simpa [Fits] using hfits
  | take text => exact .bind _ fun _ => .pure (by simp [Fits])
  | source =>
    refine .bind _ fun found => ?_
    cases found with
    | none => exact .pure (by simp)
    | some name => exact .pure (by simp [Fits])
  | token name =>
    refine .bind _ fun compiling => .bind _ fun found => ?_
    cases found with
    | none => exact .whole _
    | some header =>
      dsimp only
      split
      · exact .whole _
      · split
        · exact .throw _
        · exact .pure (by simp [Fits])
  | goOn =>
    refine .bind _ fun exiting => ?_
    split <;> exact .pure (by simp [Fits])
  | resume => exact .whole _
  | lines lines =>
    cases lines with
    | nil => exact .pure (by simp)
    | cons first rest =>
      refine .bind _ fun exiting => ?_
      split
      · exact .pure (by simp)
      · cases first with
        | error cause => exact .throw _
        | ok text => exact .bind _ fun _ => .pure (by simp [Fits])
  | line text =>
    change YieldsFit (if _ then _ else _)
    split
    · exact .throw _
    · exact .bind _ fun _ => .bind _ fun _ => .pure (by simp [Fits])
  | leave readers bytes => exact .whole _

end Job

/-! ### Recovering -/

section Recover

variable {entries : List Header} {markers : List Marker} {m : Machine}

theorem Machine.sameOutside_recover (m : Machine) :
    Memory.SameOutside (· < dictionaryStart) m.memory m.recover.memory := by
  have htoIn : toIn + 4 ≤ dictionaryStart := by decide
  have hstate : state + 4 ≤ dictionaryStart := by decide
  refine ((Memory.sameOutside_setCell _ _ _).mono fun addr hin => ?_).trans
    ((Memory.sameOutside_setCell _ _ _).mono fun addr hin => ?_)
  · exact Nat.lt_of_lt_of_le hin.2 htoIn
  · exact Nat.lt_of_lt_of_le hin.2 hstate

theorem Orderly.recover (hord : Orderly entries markers [] m) :
    Orderly entries [] [] m.recover ∧ Evolves Nowhere entries entries markers [] m m.recover := by
  have hb := hord.bounded
  have hrecover := hb.recover
  have hsame := m.sameOutside_recover
  have hdict : m.recover.dictionary = m.dictionary := by rw [Machine.recover]
  have hctl : m.recover.control = m.control.clear := by rw [Machine.recover]
  generalize m.recover = recovered at hrecover hsame hdict hctl ⊢
  -- all but the control stack
  have hcalm : m.Calm { recovered with control := m.control } :=
    .below { hrecover with control := hb.control, paired := hb.paired } rfl hdict hsame
  refine ⟨⟨hrecover, (hord.calm hcalm).lexicon, ?_, trivial, .nil⟩, ?_⟩
  · rw [hctl]
    rfl
  · have hev : Evolves Nowhere entries entries markers markers m _ := .calm hb hcalm
    exact { hev with fresh := fun _ hnone => absurd hnone List.not_mem_nil }

end Recover

/-! ### Moments -/

namespace Moment

/-- The primitive that the next job performs. -/
def prim? (moment : Moment) : Option Prim :=
  match moment.jobs, moment.fault with
  | job :: _, none => job.prim? moment.machine
  | _, _ => none

/-- The next word, if there is one, stores nowhere of its own choice, and does not take back code. -/
def Tame (moment : Moment) : Prop := ∀ prim, moment.prim? = some prim → prim.Tame moment.machine

/-- The step performs a primitive that changes a byte that was in use. -/
def Alters (before after : Moment) (address : Nat) : Prop :=
  ∃ prim, before.prim? = some prim ∧ prim.Alters before.machine after.machine address

/-- The step performs a `:` that enters a header. -/
def Creates (before after : Moment) (header : Nat) : Prop :=
  before.prim? = some (.defining .colon) ∧ ¬ before.machine.HasHeader header ∧ after.machine.HasHeader header

/-- The step performs a `;` that takes the marker of a definition and ends without a fault. -/
def Closes (before after : Moment) (token : Nat) : Prop :=
  before.prim? = some (.defining .semicolon) ∧ before.machine.markers = ⟨.colon, token⟩ :: after.machine.markers ∧
    after.fault = none

/-- The machine is in order, and what is set aside fits. -/
structure Sound (entries : List Header) (markers : List Marker) (moment : Moment) : Prop where
  orderly : Orderly entries markers [] moment.machine
  nonempty : entries ≠ []
  fits : ∀ job ∈ moment.jobs, job.Fits

variable {before after : Moment} {entries : List Header} {markers : List Marker}

/-- A step that performs a primitive ends where the primitive ends, and fails if the primitive fails. -/
theorem Step.of_prim? (hstep : before.Step after) (hprim : before.prim? = some prim) :
    after.machine = stateAfter prim.perform before.machine ∧
      (after.fault = none ↔ ∃ request, prim.perform before.machine = .ok request after.machine) := by
  cases hstep with
  | call call m fault => cases fault <;> cases hprim
  | job hnext =>
    obtain ⟨m, _ | ⟨first, rest⟩, _ | fault⟩ := before
    · cases hnext
    · cases hnext
    · have hperf := perform_of_prim? hprim
      rw [next] at hnext
      dsimp only at hnext hperf ⊢
      cases hres : prim.perform m with
      | ok request found =>
        rw [bind_of_ok hres] at hperf
        rw [hperf] at hnext
        cases hnext
        exact ⟨(stateAfter_of_ok hres).symm, fun _ => ⟨request, rfl⟩, fun _ => rfl⟩
      | error fault found =>
        rw [bind_of_error hres] at hperf
        rw [hperf] at hnext
        cases hnext
        refine ⟨(stateAfter_of_error hres).symm, fun hnone => ?_, fun hran => ?_⟩
        · cases hnone
        · obtain ⟨request, hok⟩ := hran
          cases hok
    · cases hprim

/-- A step that takes a job and performs no primitive only appends. -/
theorem calm_of_next (hsound : Sound entries markers before) (hprim : before.prim? = none)
    (hnext : before.next = some after) : before.machine.Calm after.machine := by
  obtain ⟨m, jobs, fault⟩ := before
  match jobs, fault with
  | [], _ => cases hnext
  | job :: rest, none =>
    have hcalm := Job.calm hsound.orderly.bounded (hsound.fits job mem_cons_self) hprim
    rw [next] at hnext
    dsimp only at hnext hcalm ⊢
    cases hperf : job.perform m with
    | ok jobs found | error fault found =>
      rw [hperf] at hnext
      rw [stateAfter, hperf] at hcalm
      cases hnext
      exact hcalm
  | job :: rest, some fault =>
    have hcleans := @keeps_cleanUp m job (hsound.fits job mem_cons_self) fault
    have hcalm := hcleans.keeps m (.refl hsound.orderly.bounded)
    rw [next] at hnext
    dsimp only at hnext hcalm ⊢
    cases hcleanUp : job.cleanUp fault m with
    | ok _ found | error worse found =>
      rw [hcleanUp] at hnext
      rw [stateAfter, hcleanUp] at hcalm
      cases hnext
      exact hcalm

theorem fits_of_next (hfits : ∀ job ∈ before.jobs, job.Fits) (hnext : before.next = some after) :
    ∀ job ∈ after.jobs, job.Fits := by
  obtain ⟨m, jobs, fault⟩ := before
  match jobs, fault with
  | [], _ => cases hnext
  | job :: rest, none =>
    have hrest : ∀ job ∈ rest, job.Fits := fun job hjob => hfits job (mem_cons_of_mem _ hjob)
    rw [next] at hnext
    dsimp only at hnext
    cases hperf : job.perform m with
    | ok jobs found =>
      rw [hperf] at hnext
      cases hnext
      intro next hin
      rcases List.mem_append.1 hin with hnew | hold
      · exact job.yieldsFit _ _ _ hperf next hnew
      · exact hrest next hold
    | error fault found =>
      rw [hperf] at hnext
      cases hnext
      exact hrest
  | job :: rest, some fault =>
    rw [next] at hnext
    dsimp only at hnext
    cases hcleanUp : job.cleanUp fault m with
    | ok _ found | error worse found =>
      rw [hcleanUp] at hnext
      cases hnext
      exact fun job hjob => hfits job (mem_cons_of_mem _ hjob)

theorem Step.fits (hstep : before.Step after) (hfits : ∀ job ∈ before.jobs, job.Fits) :
    ∀ job ∈ after.jobs, job.Fits := by
  cases hstep with
  | job hnext => exact fits_of_next hfits hnext
  | call call m fault => cases call <;> simp [Call.opening, Job.Fits]

theorem Step.calm (hstep : before.Step after) (hsound : Sound entries markers before) (hprim : before.prim? = none) :
    before.machine.Calm after.machine ∨ after.machine = before.machine.recover := by
  cases hstep with
  | job hnext => exact .inl (calm_of_next hsound hprim hnext)
  | call call m fault =>
    cases call with
    | line text => exact .inl (.refl hsound.orderly.bounded)
    | load path => exact .inl (.refl hsound.orderly.bounded)
    | recover => exact .inr rfl

theorem Sound.of_orderly (hsound : Sound entries markers before) (hstep : before.Step after) {area : Nat → Prop}
    {revised : List Header} {later : List Marker} (hord : Orderly revised later [] after.machine)
    (hev : Evolves area entries revised markers later before.machine after.machine) : Sound revised later after := by
  refine ⟨hord, ?_, hstep.fits hsound.fits⟩
  rintro rfl
  obtain ⟨entry, hentry⟩ := exists_mem_of_ne_nil entries hsound.nonempty
  obtain ⟨other, hnone, -⟩ := hev.kept entry hentry
  cases hnone

theorem Sound.step (hsound : Sound entries markers before) (htame : before.Tame) (hstep : before.Step after) :
    ∃ revised later, Sound revised later after ∧
      Evolves (before.Alters after) entries revised markers later before.machine after.machine := by
  cases hprim : before.prim? with
  | some prim =>
    obtain ⟨revised, later, hord, hev⟩ :=
      Prim.perform_evolves hsound.orderly hsound.nonempty (htame prim hprim)
    rw [← (hstep.of_prim? hprim).1] at hord hev
    exact ⟨revised, later, hsound.of_orderly hstep hord hev,
      hev.widen fun addr halters => ⟨prim, hprim, halters⟩⟩
  | none =>
    rcases hstep.calm hsound hprim with hcalm | hrecover
    · have hev : Evolves (before.Alters after) entries entries markers markers before.machine after.machine :=
        .calm hsound.orderly.bounded hcalm
      exact ⟨entries, markers, hsound.of_orderly hstep (hsound.orderly.calm hcalm) hev, hev⟩
    · obtain ⟨hord, hev⟩ := hsound.orderly.recover
      rw [← hrecover] at hord hev
      exact ⟨entries, [], hsound.of_orderly hstep hord hev, hev.widen fun _ => False.elim⟩

/-- A `;` that ends without a fault takes the only marker there is, and uncovers its header; one that fails changes
nothing that was in use. -/
theorem Sound.semicolon (hsound : Sound entries markers before) (hstep : before.Step after)
    (hprim : before.prim? = some (.defining .semicolon)) :
    (after.fault = none ∧ ∃ token, Reveals entries markers before.machine token after.machine) ∨
      (after.fault ≠ none ∧ Spares entries markers before.machine after.machine) := by
  obtain ⟨hm, hfault⟩ := hstep.of_prim? hprim
  have hclose := DefiningWord.secures_close hsound.orderly before.machine rfl
  have hcomplete : stateAfter (Prim.defining .semicolon).perform before.machine =
      stateAfter DefiningWord.close before.machine := Prim.stateAfter_complete _ _
  rw [hcomplete] at hm
  cases hres : DefiningWord.close before.machine with
  | ok answer closed =>
    rw [hres] at hclose
    rw [stateAfter_of_ok hres] at hm
    subst hm
    exact .inl ⟨hfault.2 ⟨none, bind_of_ok hres⟩, hclose⟩
  | error fault failed =>
    rw [hres] at hclose
    rw [stateAfter_of_error hres] at hm
    subst hm
    refine .inr ⟨fun hnone => ?_, hclose⟩
    obtain ⟨request, hok⟩ := hfault.1 hnone
    cases (bind_of_error hres).symm.trans hok

/-- Which step changes a byte of a header: `;` and `IMMEDIATE` change its flags, and `DOES>` its code. -/
theorem Sound.of_alters (hsound : Sound entries markers before) {header addr : Nat}
    (hhdr : before.machine.HasHeader header) (hlow : header ≤ addr) (hhigh : addr < header + size)
    (halters : before.Alters after addr) :
    (before.prim? = some (.defining .semicolon) ∧ before.machine.markers = [⟨.colon, Header.token header⟩] ∧
        InCell (flagsField header) addr ∧
        after.machine.memory.cellAt (flagsField header) =
          before.machine.memory.cellAt (flagsField header) &&& ~~~smudged) ∨
      (before.prim? = some (.defining .immediate) ∧ before.machine.dictionary.latest = header ∧
        InCell (flagsField header) addr ∧
        after.machine.memory.cellAt (flagsField header) =
          before.machine.memory.cellAt (flagsField header) ||| immediate) ∨
      (before.prim? = some (.thread .setDoes) ∧ before.machine.dictionary.latest = header ∧
        (InCell (Header.token header) addr ∨ InCell (doesField header) addr)) := by
  have hord := hsound.orderly
  -- the header that a word changes is the header that the byte belongs to
  have hsame : ∀ {other place}, before.machine.HasHeader other → other ≤ place → place + 4 ≤ other + size →
      InCell place addr → other = header := by
    rintro other place hother hfst hlast ⟨hinLow, hinHigh⟩
    have hapart := hord.headers_apart hhdr hother
    omega
  have hlatest := hord.hasHeader_latest hsound.nonempty
  obtain ⟨prim, hprim, halters⟩ := halters
  unfold Prim.Alters at halters
  split at halters
  · obtain ⟨token, hmarks, hin, hvalue⟩ := halters
    have hmark : ⟨.colon, token⟩ ∈ markers := by
      rw [← hord.markers_eq, hmarks]
      exact mem_cons_self
    obtain ⟨hother, htoken⟩ := hord.hasHeader_ofToken hmark
    obtain rfl := hsame hother (by simp [flagsField]) (by simp [flagsField, size]) hin
    exact .inl ⟨hprim, htoken ▸ hmarks, hin, hvalue⟩
  · obtain ⟨hin, hvalue⟩ := halters
    obtain rfl := hsame hlatest (by simp [flagsField]) (by simp [flagsField, size]) hin
    exact .inr (.inl ⟨hprim, rfl, hin, hvalue⟩)
  · rcases halters with hin | hin
    · obtain rfl := hsame hlatest (by simp [Header.token]) (by simp [Header.token, size]) hin
      exact .inr (.inr ⟨hprim, rfl, .inl hin⟩)
    · obtain rfl := hsame hlatest (by simp [doesField]) (by simp [doesField, size]) hin
      exact .inr (.inr ⟨hprim, rfl, .inr hin⟩)
  · rw [hord.markers_eq] at halters
    obtain ⟨marker, hmark, hfwd, hin, -⟩ := halters
    obtain ⟨entry, hentry, rfl⟩ := hord.hasHeader_iff.1 hhdr
    have hplace := (hord.seats.places marker hmark hfwd).2.2 entry hentry
    obtain ⟨hinLow, hinHigh⟩ := hin
    omega
  · exact halters.elim

end Moment

/-! ### Runs -/

theorem Machine.Started.orderly (hstarted : m.Started) : ∃ entries, Orderly entries [] [] m ∧ entries ≠ [] := by
  obtain ⟨fuel, withPrelude, disk, verbose, hstart⟩ := hstarted
  obtain ⟨extras, hfresh, -⟩ := Session.fresh_of_start hstart
  have hidle := hfresh.idle
  obtain ⟨entry, hentry, -⟩ := builtin_entries.2 (.defining .colon)
  exact ⟨extras ++ builtin.1, ⟨hidle.bounded, hidle.lexicon, hidle.closed, trivial, .nil⟩,
    ne_nil_of_mem (mem_append_right extras hentry)⟩

namespace Run

/-- The words of a run store nowhere of their own choice, and take back no code. -/
def Tame (run : Run) : Prop := ∀ n < run.last, (run.moment n).Tame

theorem sound (run : Run) (htame : run.Tame) {n : Nat} (hn : n ≤ run.last) :
    ∃ entries markers, Moment.Sound entries markers (run.moment n) := by
  induction n with
  | zero =>
    obtain ⟨entries, hord, hnonempty⟩ := run.started.orderly
    refine ⟨entries, [], hord, hnonempty, fun job hjob => ?_⟩
    rw [run.idle] at hjob
    cases hjob
  | succ n ih =>
    obtain ⟨entries, markers, hsound⟩ := ih (by omega)
    obtain ⟨revised, later, hrevised, -⟩ := hsound.step (htame n hn) (run.step n hn)
    exact ⟨revised, later, hrevised⟩

theorem lasting (run : Run) (htame : run.Tame) (holds : Moment → Prop)
    (hkeeps : ∀ {before after : Moment} {entries revised : List Header} {markers later : List Marker},
      before.Step after → Moment.Sound entries markers before → Moment.Sound revised later after →
        Evolves (before.Alters after) entries revised markers later before.machine after.machine →
          holds before → holds after)
    {i j : Nat} (hij : i ≤ j) (hj : j ≤ run.last) (hi : holds (run.moment i)) : holds (run.moment j) := by
  induction hij with
  | refl => exact hi
  | @step n _ ih =>
    obtain ⟨entries, markers, hsound⟩ := run.sound htame (Nat.le_of_lt hj)
    obtain ⟨revised, later, hrevised, hev⟩ := hsound.step (htame n hj) (run.step n hj)
    exact hkeeps (run.step n hj) hsound hrevised hev (ih (Nat.le_of_lt hj))

end Run

/-! ### A run that defines a word -/

/-- The job performs no word: it dispatches none, and no thread goes on. -/
def Job.Quiet (m : Machine) : Job → Prop
  | dispatch _ | serve (.evaluate _) | serve (.load _) => False
  | thread => m.ip = 0
  | _ => True

def Moment.Quiet (moment : Moment) : Prop :=
  ∀ job rest, moment.jobs = job :: rest → moment.fault = none → job.Quiet moment.machine

theorem Moment.Quiet.tame {moment : Moment} (hquiet : moment.Quiet) : moment.Tame := by
  intro prim hprim
  obtain ⟨m, jobs, fault⟩ := moment
  match jobs, fault with
  | [], _ => cases hprim
  | _ :: _, some _ => cases hprim
  | job :: rest, none =>
    cases job with
    | dispatch xt => exact (hquiet _ rest rfl rfl).elim
    | _ => cases hprim

/-- Quiet steps lead from a moment to another. -/
inductive Moment.QuietlyLeads : Moment → Moment → Prop where
  | refl (moment : Moment) : QuietlyLeads moment moment
  | step {first second last : Moment} (hquiet : first.Quiet) (hnext : first.next = some second)
      (hrest : QuietlyLeads second last) : QuietlyLeads first last

theorem Moment.QuietlyLeads.trans {first second last : Moment} (hfst : first.QuietlyLeads second)
    (hsnd : second.QuietlyLeads last) : first.QuietlyLeads last := by
  induction hfst with
  | refl => exact hsnd
  | step hquiet hnext _ ih => exact .step hquiet hnext (ih hsnd)

theorem Moment.QuietlyLeads.leads {first last : Moment} (hleads : first.QuietlyLeads last) : first.Leads last := by
  induction hleads with
  | refl => exact .refl _
  | step _ hnext _ ih => exact .step hnext ih

theorem Moment.QuietlyLeads.perform {job : Job} {jobs rest : List Job} {last : Moment}
    (hquiet : job.Quiet m) (hperf : job.perform m = .ok jobs after)
    (hrest : QuietlyLeads ⟨after, jobs ++ rest, none⟩ last) : QuietlyLeads ⟨m, job :: rest, none⟩ last := by
  refine .step (fun next others hjobs _ => ?_) (by simp only [next, hperf]) hrest
  cases hjobs
  exact hquiet

namespace Run

theorem tame_snoc {run : Run} (htame : run.Tame) {next : Moment} (hstep : (run.moment run.last).Step next)
    (hlast : (run.moment run.last).Tame) : (run.snoc hstep).Tame := by
  intro n hn
  rw [snoc_last] at hn
  rw [run.moment_snoc_of_le hstep (Nat.le_of_lt_succ hn)]
  rcases Nat.lt_succ_iff_lt_or_eq.1 hn with hlt | rfl
  · exact htame n hlt
  · exact hlast

theorem exists_of_quietlyLeads (run : Run) (htame : run.Tame) {first last : Moment} (hfst : run.moment run.last = first)
    (hleads : first.QuietlyLeads last) :
    ∃ longer : Run, longer.Tame ∧ longer.moment longer.last = last ∧ run.last ≤ longer.last ∧
      ∀ n ≤ run.last, longer.moment n = run.moment n := by
  induction hleads generalizing run with
  | refl => exact ⟨run, htame, hfst, Nat.le_refl _, fun n hn => rfl⟩
  | step hnow hnext _ ih =>
    have hstep := Moment.Step.job (hfst ▸ hnext)
    obtain ⟨longer, hlonger, hlast, hle, hsame⟩ :=
      ih (run.snoc hstep) (tame_snoc htame hstep (hfst ▸ hnow.tame)) (run.moment_snoc_last hstep)
    rw [snoc_last] at hle hsame
    refine ⟨longer, hlonger, hlast, by omega, fun n hn => ?_⟩
    rw [hsame n (by omega), run.moment_snoc_of_le hstep hn]

end Run

/-- A word that is called comes to be dispatched. -/
theorem Calls.quietlyLeads {compiling : Bool}
    (hcalls : Calls entries token prim compiling) (hb : m.Bounded) (hlex : Lexicon entries m)
    (hcpl : m.Compiling ↔ compiling = true) (rest : List Job) :
    ∃ xt, (Job.dispatch xt).prim? { m with ip := 0 } = some prim ∧ dictionaryStart ≤ xt ∧
      Moment.QuietlyLeads ⟨m, .token token :: rest, none⟩
        ⟨{ m with ip := 0 }, .dispatch xt :: .thread :: .putBack m.ip :: rest, none⟩ := by
  obtain ⟨header, hlook, hcode, hruns⟩ := hcalls
  have hfind := hlex.findHeader?_eq token
  rw [hlook] at hfind
  have hread := hlex.readCell_eq (mem_of_lookup hlook)
  have htoken : perform (.token token) m = .ok [.serve (.execute header.xt)] m := by
    refine (bind_of_ok (isCompiling_eq hb)).trans ?_
    refine (bind_of_ok (ask_of_ok hfind)).trans ?_
    cases compiling with
    | true =>
      have htrue : (m.memory.cellAt state != 0) = true := bne_iff_ne.2 (hcpl.2 rfl)
      simp only [htrue, show header.isImmediate = true from hruns]
      rfl
    | false =>
      have hresting : ¬ m.Compiling := fun hopen => Bool.false_ne_true (hcpl.1 hopen)
      have hfalse : (m.memory.cellAt state != 0) = false := by
        rw [bne_eq_false_iff_eq]
        exact Decidable.not_not.1 hresting
      simp only [hfalse, show header.isCompileOnly = false from hruns]
      rfl
  refine ⟨header.xt, ?_, ?_, .perform trivial htoken (.perform trivial rfl (.refl _))⟩
  · simp only [prim?, hread, hcode]
  · have hbelow := (hlex.below header (mem_of_lookup hlook)).1
    rw [hb.dictionary.start_eq] at hbelow
    exact Nat.le_trans hbelow (Nat.le_add_right _ _)

theorem Reading.quietlyLeads {bytes : List UInt8} {words : List (List UInt8)} (hrd : Reading bytes m) (hb : m.Bounded)
    (hwords : Text.words bytes = encode token :: words) (rest : List Job) :
    ∃ toIn, Reading (Text.afterWord bytes) (m.readTo toIn) ∧ Text.words (Text.afterWord bytes) = words ∧
      Moment.QuietlyLeads ⟨m, .source :: rest, none⟩ ⟨m.readTo toIn, .token token :: .goOn :: rest, none⟩ := by
  obtain ⟨toIn, hnext, hafter, hleft⟩ := nextToken?_of_reading hrd hb hwords
  exact ⟨toIn, hafter, hleft, .perform trivial (bind_of_ok hnext) (.refl _)⟩

theorem Reading.quietlyLeads_end {bytes : List UInt8} (hrd : Reading bytes m)
    (hb : m.Bounded) (hwords : Text.words bytes = []) (rest : List Job) :
    ∃ toIn, Moment.QuietlyLeads ⟨m, .source :: rest, none⟩ ⟨m.readTo toIn, rest, none⟩ := by
  obtain ⟨toIn, hnext⟩ := nextToken?_of_end hrd hb hwords
  exact ⟨toIn, .perform trivial (bind_of_ok hnext) (.refl _)⟩

theorem Moment.quietlyLeads_line (hb : m.Bounded)
    (hline : (encode line).length ≤ inputBufferSize) (rest : List Job) :
    QuietlyLeads ⟨m, .line line :: rest, none⟩
      ⟨withLine m (encode line), .source :: rest, none⟩ := by
  have hperf : perform (.line line) m =
      .ok [.source] (withLine m (encode line)) := by
    rw [perform, if_neg (Nat.not_lt.2 hline)]
    exact (bind_of_ok (writeLine_eq hb.size_eq hline)).trans
      (bind_of_ok (setLine_eq _ hb.size_eq))
  exact .perform trivial hperf (.refl _)

theorem Moment.quietlyLeads_goOn (hip : m.ip = 0) (hexiting : m.exiting = false) (ip : Nat) (rest : List Job) :
    QuietlyLeads ⟨m, .thread :: .putBack ip :: .goOn :: rest, none⟩
      ⟨{ m with ip }, .source :: rest, none⟩ := by
  have hthread : perform .thread m = .ok [] m := by
    have hidle : ask (fun m => .ok m.ip) m = .ok 0 m := by rw [ask, hip]
    exact bind_of_ok hidle
  have hgoOn : perform .goOn { m with ip } = .ok [.source] { m with ip } := by
    have hmore : ask (fun m => .ok m.exiting) { m with ip } = .ok false { m with ip } := by
      rw [ask, hexiting]
    exact bind_of_ok hmore
  exact .perform hip hthread (.perform trivial rfl (.perform trivial hgoOn (.refl _)))

theorem Moment.step_of_prim? {job : Job} (hprim : job.prim? m = some prim)
    (hperf : prim.perform m = .ok none after) (rest : List Job) : Step ⟨m, job :: rest, none⟩ ⟨after, rest, none⟩ := by
  have hjob : job.perform m = .ok [] after := (perform_of_prim? hprim).trans (bind_of_ok hperf)
  exact .job (by simp only [next, hjob, nil_append])

/-- A line that opens a definition and has one word more to follow. -/
structure OpeningLine (line word : String) : Prop where
  fits : (encode line).length ≤ inputBufferSize
  words_eq : Text.words (encode line) = [encode ":", encode "x", encode word]

theorem Holds.quietlyLeads_colon {started : Machine} (hholds : Holds builtin started) (hline : OpeningLine line word) :
    ∃ (m : Machine) (xt : Nat) (bytes : List UInt8), Holds builtin m ∧ Reading bytes m ∧
      Text.words bytes = [encode "x", encode word] ∧
      (Job.dispatch xt).prim? { m with ip := 0 } = some (.defining .colon) ∧ dictionaryStart ≤ xt ∧
      Moment.QuietlyLeads ⟨started, [.line line], none⟩
        ⟨{ m with ip := 0 }, [.dispatch xt, .thread, .putBack m.ip, .goOn], none⟩ := by
  have hb := hholds.fresh.idle.bounded
  have hlaid := hholds.readOn (.withLine started hline.fits)
  obtain ⟨toIn, hrd, hwords, hsource⟩ := (reading_withLine hb hline.fits).quietlyLeads
    hlaid.fresh.idle.bounded hline.words_eq []
  have hready := hlaid.readOn (.readTo _ toIn)
  obtain ⟨xt, hprim, hstart, hcalled⟩ :=
    (calls_builtin (by decide) (by decide) : Calls builtin.1 ":" (.defining .colon) false)
      |>.quietlyLeads hready.fresh.idle.bounded hready.fresh.idle.lexicon hready.fresh.idle.compiling_iff [.goOn]
  exact ⟨_, xt, _, hready, hrd, hwords, hprim, hstart,
    (Moment.quietlyLeads_line hb hline.fits []).trans (hsource.trans hcalled)⟩

theorem Run.exists_colon (hline : OpeningLine line word) :
    ∃ (run : Run) (m : Machine) (xt : Nat) (bytes : List UInt8), run.Tame ∧
    run.moment run.last = ⟨{ m with ip := 0 }, [.dispatch xt, .thread, .putBack m.ip, .goOn], none⟩ ∧
    (Job.dispatch xt).prim? { m with ip := 0 } = some (.defining .colon) ∧ Holds builtin m ∧
    Reading bytes m ∧ Text.words bytes = [encode "x", encode word] := by
  obtain ⟨started, hstart, hholds⟩ := Session.start_eq .empty false
  have hstarted : started.Started := ⟨0, false, .empty, false, hstart 0⟩
  obtain ⟨m, xt, bytes, hready, hrd, hwords, hprim, -, hleads⟩ := hholds.quietlyLeads_colon hline
  have hcall := Moment.Step.call (.line line) started none
  have htame : ((Run.ofStarted hstarted).snoc hcall).Tame :=
    tame_snoc (fun n hn => absurd hn (Nat.not_lt_zero n)) hcall nofun
  obtain ⟨run, hrun, hlast, -⟩ := exists_of_quietlyLeads _ htame (moment_snoc_last _ hcall) hleads
  exact ⟨run, m, xt, bytes, hrun, hlast, hprim, hready, hrd, hwords⟩

/-- A definition is open, and a word that is performed at once comes next. -/
structure Unclosed (word : String) (prim : Prim) (entry : Header) (entries : List Header) (draft : Draft)
    (m : Machine) : Prop where
  drafting : Drafting (entry :: entries) (body entry.xt) draft m
  markers_eq : draft.markers = [⟨.colon, entry.xt⟩]
  room : draft.here + 4 ≤ draft.names
  calls : Calls (entry :: entries) word prim true
  ip_eq : m.ip = 0
  exiting_eq : m.exiting = false
  reading : ∃ bytes, Reading bytes m ∧ Text.words bytes = [encode word]

variable {word : String} {prim : Prim}

theorem Holds.exists_unclosed {bytes : List UInt8} (hholds : Holds builtin m)
    (hcalls : Calls builtin.1 word prim true) (hrd : Reading bytes m)
    (hwords : Text.words bytes = [encode "x", encode word]) :
    ∃ opened, DefiningWord.openNamed { m with ip := 0 } = .ok () opened ∧
      Unclosed word prim (headedEntry builtin.1 m.dictionary "x" smudged .colon) builtin.1
        (openedDraft m.dictionary "x") opened := by
  have hidle := hholds.fresh.idle
  obtain ⟨hhdr, hroom⟩ := @builtin_room "x" (by decide)
  rw [← hholds.dictionary_eq] at hhdr hroom
  obtain ⟨opened, hopen, hd, hsame, hleft⟩ := (hidle.withIp 0).opens (hrd.withIp 0) hwords hhdr
  refine ⟨opened, hopen, hd, rfl, ?_, hcalls.cons_of_hidden (headedEntry_hidden ..),
    by rw [hsame.machine], ?_, _, hleft, (Text.nextWord_of_words_cons hwords).2.2⟩
  · change (openedDraft m.dictionary "x").here + 2 ^ 16 ≤ _ at hroom
    change _ ≤ (headed m.dictionary "x").names
    omega
  · rw [hsame.machine]
    exact hholds.fresh.exiting_eq

theorem Unclosed.quietlyLeads {draft : Draft} (hunclosed : Unclosed word prim entry entries draft m) (ip : Nat) :
    ∃ later xt left, Drafting (entry :: entries) (body entry.xt) draft later ∧ later.exiting = false ∧
      Reading left later ∧ Text.words left = [] ∧
      (Job.dispatch xt).prim? { later with ip := 0 } = some prim ∧ dictionaryStart ≤ xt ∧
      Moment.QuietlyLeads ⟨m, [.thread, .putBack ip, .goOn], none⟩
        ⟨{ later with ip := 0 }, [.dispatch xt, .thread, .putBack later.ip, .goOn], none⟩ := by
  obtain ⟨bytes, hrd, hwords⟩ := hunclosed.reading
  have hd := hunclosed.drafting.withIp ip
  obtain ⟨toIn, hleft, hnone, hsource⟩ := (hrd.withIp ip).quietlyLeads hd.site.bounded hwords []
  have hread := (ReadOn.readTo { m with ip } toIn).drafting hd
  obtain ⟨xt, hprim, hstart, hcalled⟩ := hunclosed.calls.quietlyLeads hread.site.bounded hread.lexicon
    hread.compiling_iff [.goOn]
  exact ⟨_, xt, _, hread, hunclosed.exiting_eq, hleft, hnone, hprim, hstart,
    (Moment.quietlyLeads_goOn hunclosed.ip_eq hunclosed.exiting_eq ip []).trans (hsource.trans hcalled)⟩

/-- A run has just performed a `:` that entered an entry, and the word comes next. -/
structure Run.Unfinished (word : String) (prim : Prim) (run : Run) (k : Nat) (entry : Header) (entries : List Header)
    (draft : Draft) (m : Machine) : Prop where
  tame : run.Tame
  last_eq : run.last = k + 1
  creates : (run.moment k).Creates (run.moment (k + 1)) entry.address
  moment_eq : ∃ ip, run.moment run.last = ⟨m, [.thread, .putBack ip, .goOn], none⟩
  unclosed : Unclosed word prim entry entries draft m

theorem Run.exists_unfinished (hline : OpeningLine line word) (hcalls : Calls builtin.1 word prim true) :
    ∃ run k entry entries draft m, Run.Unfinished word prim run k entry entries draft m := by
  obtain ⟨run, m, xt, bytes, htame, hlast, hprim, hholds, hrd, hwords⟩ := Run.exists_colon hline
  obtain ⟨opened, hopen, hunclosed⟩ := hholds.exists_unclosed hcalls hrd hwords
  have hstep : (run.moment run.last).Step ⟨opened, [.thread, .putBack m.ip, .goOn], none⟩ :=
    hlast ▸ Moment.step_of_prim? hprim (bind_of_ok hopen) _
  have hnow : (run.moment run.last).Tame := by
    rw [hlast]
    intro prim hsome
    cases hprim.symm.trans hsome
    trivial
  refine ⟨run.snoc hstep, run.last, headedEntry builtin.1 m.dictionary "x" smudged .colon, builtin.1,
    openedDraft m.dictionary "x", opened, tame_snoc htame hstep hnow, rfl, ?_,
    ⟨m.ip, run.moment_snoc_last hstep⟩, hunclosed⟩
  rw [run.moment_snoc_of_le hstep (Nat.le_refl _), run.moment_snoc_last hstep, hlast]
  have hlex : Lexicon builtin.1 { m with ip := 0 } := hholds.fresh.idle.lexicon
  refine ⟨hprim, fun hhdr => ?_, hunclosed.drafting.lexicon.hasHeader_iff.2 ⟨_, mem_cons_self, rfl⟩⟩
  obtain ⟨entry, hentry, haddr⟩ := hlex.hasHeader_iff.1 hhdr
  have hbelow : entry.address + 20 ≤ m.dictionary.here := (hlex.below entry hentry).2
  have habove := le_aligned m.dictionary.here
  change entry.address = aligned m.dictionary.here at haddr
  omega

/-- A definition with this entry is open at a moment of a run, and nothing has been compiled into it. -/
structure Moment.Begun (entry : Header) (moment : Moment) : Prop where
  ip_eq : moment.machine.ip = 0
  draft : ∃ entries draft, Drafting (entry :: entries) (body entry.xt) draft moment.machine ∧
    draft.markers = [⟨.colon, entry.xt⟩] ∧ draft.here + 4 ≤ draft.names

theorem Moment.Begun.markers_eq {moment : Moment} (hbegun : moment.Begun entry) :
    moment.machine.markers = [⟨.colon, entry.xt⟩] := by
  obtain ⟨entries, draft, hd, hmarks, -⟩ := hbegun.draft
  rw [hd.site.held.markers_eq hd.site.top_eq, hmarks]

/-- There is a run that opens a definition and performs the word in it, if it can be performed. -/
theorem Run.exists_performed (hline : OpeningLine line word) (hcalls : Calls builtin.1 word prim true)
    (htame : ∀ machine, prim.Tame machine) (hperf : ∀ (entry : Header) (moment : Moment), moment.Begun entry →
      ∃ after, prim.perform moment.machine = .ok none after) :
    ∃ (run : Run) (k m : Nat) (entry : Header), run.Tame ∧ k < m ∧ m < run.last ∧
      (run.moment k).Creates (run.moment (k + 1)) entry.address ∧ (run.moment (k + 1)).Begun entry ∧
      (run.moment m).prim? = some prim ∧ (run.moment m).Begun entry ∧ (run.moment (m + 1)).fault = none := by
  obtain ⟨opened, k, entry, entries, draft, machine, hopened⟩ := Run.exists_unfinished hline hcalls
  have hunclosed := hopened.unclosed
  obtain ⟨ip, hmoment⟩ := hopened.moment_eq
  obtain ⟨later, xt, -, hd, -, -, -, hprim, -, hleads⟩ := hunclosed.quietlyLeads ip
  obtain ⟨run, hrun, hlast, hle, hsame⟩ := opened.exists_of_quietlyLeads hopened.tame hmoment hleads
  have hbegun : (run.moment run.last).Begun entry := by
    rw [hlast]
    exact ⟨rfl, entries, draft, hd.withIp 0, hunclosed.markers_eq, hunclosed.room⟩
  obtain ⟨after, hafter⟩ := hperf entry _ hbegun
  rw [hlast] at hafter
  have hstep : (run.moment run.last).Step ⟨after, [.thread, .putBack later.ip, .goOn], none⟩ :=
    hlast ▸ Moment.step_of_prim? hprim hafter _
  have hnow : (run.moment run.last).Tame := by
    rw [hlast]
    intro prim hsome
    cases hprim.symm.trans hsome
    exact htame _
  have hkm : k + 1 ≤ run.last := hopened.last_eq ▸ hle
  have hfst : run.moment (k + 1) = opened.moment (k + 1) := hsame (k + 1) (Nat.le_of_eq hopened.last_eq.symm)
  refine ⟨run.snoc hstep, k, run.last, entry, tame_snoc hrun hstep hnow, hkm, Nat.lt_succ_self _, ?_, ?_, ?_, ?_, ?_⟩
  · rw [run.moment_snoc_of_le hstep (Nat.le_of_succ_le hkm), run.moment_snoc_of_le hstep hkm, hfst,
      hsame k (by rw [hopened.last_eq]; exact Nat.le_succ k)]
    exact hopened.creates
  · rw [run.moment_snoc_of_le hstep hkm, hfst, ← hopened.last_eq, hmoment]
    exact ⟨hunclosed.ip_eq, entries, draft, hunclosed.drafting, hunclosed.markers_eq, hunclosed.room⟩
  · rw [run.moment_snoc_of_le hstep (Nat.le_refl _), hlast]
    exact hprim
  · rw [run.moment_snoc_of_le hstep (Nat.le_refl _)]
    exact hbegun
  · rw [run.moment_snoc_last hstep]

theorem openingLine_semicolon : OpeningLine ": x ;" ";" := ⟨by decide, by decide⟩

theorem calls_semicolon : Calls builtin.1 ";" (.defining .semicolon) true := calls_builtin (by decide) (by decide)

theorem Run.exists_definition : ∃ (run : Run) (k m header : Nat), run.Tame ∧ k < m ∧ m < run.last ∧
    (run.moment k).Creates (run.moment (k + 1)) header ∧
    (run.moment m).Closes (run.moment (m + 1)) (Header.token header) := by
  have hcloses {entry : Header} {moment : Moment} (hbegun : moment.Begun entry) :
      ∃ closed, (Prim.defining .semicolon).perform moment.machine = .ok none closed ∧ closed.markers = [] := by
    obtain ⟨entries, draft, hd, hmarks, hroom⟩ := hbegun.draft
    obtain ⟨closed, hclose, hidle, -⟩ := hd.closes rfl hmarks hroom
    have hempty : HoldsMarkers closed.memory closed.control.top [] := trivial
    exact ⟨closed, bind_of_ok hclose, hempty.markers_eq hidle.closed⟩
  obtain ⟨run, k, m, entry, htame, hkm, hm, hcreates, -, hprim, hbegun, hfault⟩ :=
    Run.exists_performed openingLine_semicolon calls_semicolon (fun _ => trivial) fun entry moment hbegun => by
      obtain ⟨closed, hclose, -⟩ := hcloses hbegun
      exact ⟨closed, hclose⟩
  refine ⟨run, k, m, entry.address, htame, hkm, hm, hcreates, hprim, ?_, hfault⟩
  obtain ⟨closed, hclose, hmarks⟩ := hcloses hbegun
  rw [((run.step m hm).of_prim? hprim).1, stateAfter_of_ok hclose, hmarks, hbegun.markers_eq]
  rfl

end ThreadedForth
