
import ThreadedForth.Proofs.Session.Runs

/-!
# The dictionary is append-only

A byte of the code or of the names that is in use stays as it is, except for the flags, code and does cells of a
header and for the cell that an open branch waits for. A byte that is none of these is settled, and settled bytes
stay settled: new headers and new branches lie above the code that stands already.
-/

namespace ThreadedForth

open Dictionary Header

namespace Machine

/-- The byte belongs to a cell of a header that may change. -/
def InHeader (m : Machine) (address : Nat) : Prop :=
  ∃ header, m.HasHeader header ∧ (InCell (flagsField header) address ∨
    InCell (Header.token header) address ∨ InCell (doesField header) address)

/-- The byte belongs to a cell that an open branch waits for. -/
def Awaited (m : Machine) (address : Nat) : Prop :=
  ∃ marker ∈ m.markers, marker.tag.isForward ∧ InCell marker.address address

/-- The byte is in use, and there is nothing that could change it. -/
structure Settled (m : Machine) (address : Nat) : Prop where
  used : m.Used address
  notInHeader : ¬ m.InHeader address
  notAwaited : ¬ m.Awaited address

end Machine

section Orderly

variable {area : Nat → Prop} {entries revised : List Header} {markers later : List Marker} {before after m : Machine}
  {header addr : Nat}

theorem Orderly.awaited_iff (hord : Orderly entries markers [] m) :
    m.Awaited addr ↔ ∃ marker ∈ markers, marker.tag.isForward ∧ InCell marker.address addr := by
  rw [Machine.Awaited, hord.markers_eq]

section

variable (hev : Evolves area entries revised markers later before after)

include hev

theorem Evolves.not_inCell (hafter : Orderly revised later [] after) (hused : before.Used addr) {place : Nat}
    (hlow : before.dictionary.here ≤ place) (hhigh : place + 4 ≤ after.dictionary.here) : ¬ InCell place addr := by
  rintro ⟨hfst, hlast⟩
  have hhere := hafter.here_le
  have hnames := hev.names_le
  rcases hused with ⟨_, hcode⟩ | ⟨hname, _⟩
  · omega
  · omega

theorem Evolves.inHeader
    (hbefore : Orderly entries markers [] before) (hafter : Orderly revised later [] after) (hused : before.Used addr)
    (hin : after.InHeader addr) : before.InHeader addr := by
  obtain ⟨header, hhdr, hcell⟩ := hin
  obtain ⟨entry, hentry, rfl⟩ := hafter.hasHeader_iff.1 hhdr
  rcases hev.headers entry hentry with hold | hnew
  · exact ⟨entry.address, hbefore.hasHeader_iff.2 hold, hcell⟩
  · have hhigh := (hafter.header_bounds hhdr).2
    simp only [size, flagsField, Header.token, doesField] at hhigh hcell
    rcases hcell with hflags | hcode | hdoes
    · exact absurd hflags (hev.not_inCell hafter hused (by omega) (by omega))
    · exact absurd hcode (hev.not_inCell hafter hused (by omega) (by omega))
    · exact absurd hdoes (hev.not_inCell hafter hused (by omega) (by omega))

theorem Evolves.awaited
    (hafter : Orderly revised later [] after) (hused : before.Used addr) (hawaited : after.Awaited addr) :
    ∃ marker ∈ markers, marker ∈ later ∧ marker.tag.isForward ∧ InCell marker.address addr := by
  obtain ⟨marker, hmark, hfwd, hcell⟩ := hafter.awaited_iff.1 hawaited
  rcases hev.fresh marker hmark with hold | hnew
  · exact ⟨marker, hold, hmark, hfwd, hcell⟩
  · have hhigh := (hafter.seats.places marker hmark hfwd).2.1
    exact absurd hcell (hev.not_inCell hafter hused hnew hhigh)

theorem Evolves.settled (hbefore : Orderly entries markers [] before) (hafter : Orderly revised later [] after)
    (hsettled : before.Settled addr) : after.Settled addr := by
  refine ⟨hev.used hsettled.used, fun hin => ?_, fun hawaited => ?_⟩
  · exact hsettled.notInHeader (hev.inHeader hbefore hafter hsettled.used hin)
  · obtain ⟨marker, hmark, -, hfwd, hcell⟩ := hev.awaited hafter hsettled.used hawaited
    exact hsettled.notAwaited (hbefore.awaited_iff.2 ⟨marker, hmark, hfwd, hcell⟩)

end

theorem Seated.eq_of_inCell {here : Nat} (hseated : Seated entries here markers) {marker other : Marker}
    (hmark : marker ∈ markers) (hother : other ∈ markers) (hfwd : marker.tag.isForward)
    (hotherForward : other.tag.isForward) (hin : InCell marker.address addr) (hotherIn : InCell other.address addr) :
    other.address = marker.address := by
  have hapart : markers.Pairwise fun marker other => marker.tag.isForward → other.tag.isForward →
      InCell marker.address addr → InCell other.address addr → other.address = marker.address := by
    refine hseated.distinct.imp fun hdistinct hfst hsnd hfirstIn hsecondIn => ?_
    have hcells := hdistinct hfst hsnd
    obtain ⟨hfirstLow, hfirstHigh⟩ := hfirstIn
    obtain ⟨hsecondLow, hsecondHigh⟩ := hsecondIn
    omega
  exact List.Pairwise.forall_of_forall_of_flip (fun _ _ _ _ _ _ => rfl) hapart
    (hapart.imp fun hsame hfst hsnd hfirstIn hsecondIn => (hsame hsnd hfst hsecondIn hfirstIn).symm)
    hmark hother hfwd hotherForward hin hotherIn

theorem Evolves.settled_of_resolved (hev : Evolves area entries revised markers later before after)
    (hbefore : Orderly entries markers [] before) (hafter : Orderly revised later [] after)
    (hresolved : Resolved before.markers after.markers addr) : after.Settled addr := by
  rw [hbefore.markers_eq, hafter.markers_eq] at hresolved
  obtain ⟨marker, hmark, hfwd, hcell, hgone⟩ := hresolved
  obtain ⟨hstart, hhere, hapart⟩ := hbefore.seats.places marker hmark hfwd
  have hused : before.Used addr := .inl ⟨Nat.le_trans hstart hcell.1, Nat.lt_of_lt_of_le hcell.2 hhere⟩
  refine ⟨hev.used hused, fun hin => ?_, fun hawaited => ?_⟩
  · obtain ⟨header, hhdr, hfield⟩ := hev.inHeader hbefore hafter hused hin
    obtain ⟨entry, hentry, rfl⟩ := hbefore.hasHeader_iff.1 hhdr
    have hentryApart := hapart entry hentry
    simp only [InCell, size, flagsField, Header.token, doesField] at hentryApart hfield hcell
    omega
  · obtain ⟨other, hother, hlater, hotherForward, hotherCell⟩ := hev.awaited hafter hused hawaited
    exact hgone other hlater hotherForward
      (hbefore.seats.eq_of_inCell hmark hother hfwd hotherForward hcell hotherCell)

theorem Evolves.hasHeader (hev : Evolves area entries revised markers later before after)
    (hbefore : Orderly entries markers [] before) (hafter : Orderly revised later [] after)
    (hhdr : before.HasHeader header) : after.HasHeader header := by
  obtain ⟨entry, hentry, rfl⟩ := hbefore.hasHeader_iff.1 hhdr
  exact hafter.hasHeader_iff.2 (hev.kept entry hentry)

end Orderly

namespace Moment

variable {entries : List Header} {markers : List Marker} {before after : Moment} {addr : Nat}

theorem Sound.inHeader_or_awaited (hsound : Sound entries markers before) (halters : before.Alters after addr) :
    before.machine.InHeader addr ∨ before.machine.Awaited addr := by
  have hlatest := hsound.orderly.hasHeader_latest hsound.nonempty
  obtain ⟨prim, -, halters⟩ := halters
  unfold Prim.Alters at halters
  split at halters
  · obtain ⟨token, hmarks, hin, -⟩ := halters
    rw [hsound.orderly.markers_eq] at hmarks
    exact .inl ⟨_, (hsound.orderly.hasHeader_ofToken (hmarks ▸ List.mem_cons_self)).1, .inl hin⟩
  · exact .inl ⟨_, hlatest, .inl halters.1⟩
  · exact .inl ⟨_, hlatest, .inr halters⟩
  · obtain ⟨marker, hmark, hfwd, hin, -⟩ := halters
    exact .inr ⟨marker, hmark, hfwd, hin⟩
  · exact halters.elim

theorem Sound.not_alters (hsound : Sound entries markers before) (hsettled : before.machine.Settled addr) :
    ¬ before.Alters after addr := by
  intro halters
  rcases hsound.inHeader_or_awaited halters with hin | hawaited
  · exact hsettled.notInHeader hin
  · exact hsettled.notAwaited hawaited

end Moment

namespace Run

variable {run : Run} {i j k addr : Nat}

/-- The byte at an address at a moment of a run. -/
def byteAt (run : Run) (n address : Nat) : UInt8 := (run.moment n).machine.memory.byteAt address

variable (htame : run.Tame)

include htame

theorem used_of_le (hij : i ≤ j) (hj : j ≤ run.last) (hused : (run.moment i).machine.Used addr) :
    (run.moment j).machine.Used addr :=
  run.lasting htame (·.machine.Used addr) (fun _ _ _ hev => hev.used) hij hj hused

theorem byteAt_eq_or_alters (hij : i ≤ j) (hj : j ≤ run.last) (hused : (run.moment i).machine.Used addr) :
    run.byteAt j addr = run.byteAt i addr ∨
      ∃ k, i ≤ k ∧ k < j ∧ (run.moment k).Alters (run.moment (k + 1)) addr := by
  induction hij with
  | refl => exact .inl rfl
  | @step n hin ih =>
    rcases ih (Nat.le_of_lt hj) with hsame | ⟨k, hik, hkn, halters⟩
    · by_cases halters : (run.moment n).Alters (run.moment (n + 1)) addr
      · exact .inr ⟨n, hin, Nat.lt_succ_self n, halters⟩
      · obtain ⟨entries, markers, hsound⟩ := run.sound htame (Nat.le_of_lt hj)
        obtain ⟨revised, later, -, hev⟩ := hsound.step (htame n hj) (run.step n hj)
        have hstill := run.used_of_le htame hin (Nat.le_of_lt hj) hused
        exact .inl ((hev.bytes addr hstill halters).trans hsame)
    · exact .inr ⟨k, hik, Nat.lt_succ_of_lt hkn, halters⟩

theorem byteAt_of_settled (hij : i ≤ j) (hj : j ≤ run.last)
    (hsettled : (run.moment i).machine.Settled addr) : run.byteAt j addr = run.byteAt i addr := by
  have hlast : (run.moment j).machine.Settled addr ∧
      (run.moment j).machine.memory.byteAt addr = run.byteAt i addr := by
    refine run.lasting htame (fun moment => moment.machine.Settled addr ∧
      moment.machine.memory.byteAt addr = run.byteAt i addr) ?_ hij hj ⟨hsettled, rfl⟩
    intro before after entries revised markers later _ hbefore hafter hev ⟨hsettled, hbyte⟩
    exact ⟨hev.settled hbefore.orderly hafter.orderly hsettled,
      (hev.bytes addr hsettled.used (hbefore.not_alters hsettled)).trans hbyte⟩
  exact hlast.2

theorem byteAt_of_resolved (hkj : k < j) (hj : j ≤ run.last)
    (hresolved : Resolved (run.moment k).machine.markers (run.moment (k + 1)).machine.markers addr) :
    run.byteAt j addr = run.byteAt (k + 1) addr := by
  obtain ⟨entries, markers, hsound⟩ := run.sound htame (by omega : k ≤ run.last)
  obtain ⟨revised, later, hrevised, hev⟩ := hsound.step (htame k (by omega)) (run.step k (by omega))
  exact byteAt_of_settled htame hkj hj (hev.settled_of_resolved hsound.orderly hrevised.orderly hresolved)

/-- The code of a header that is not the newest one never changes. -/
theorem byteAt_of_older (hij : i ≤ j) (hj : j ≤ run.last) {header : Nat}
    (hhdr : (run.moment i).machine.HasHeader header) (holder : header ≠ (run.moment i).machine.dictionary.latest)
    (hin : InCell (Header.token header) addr ∨ InCell (doesField header) addr) :
    run.byteAt j addr = run.byteAt i addr := by
  have hcell : header ≤ addr ∧ addr < header + size ∧ ¬ InCell (flagsField header) addr := by
    simp only [InCell, Header.token, doesField, flagsField, size] at hin ⊢
    omega
  obtain ⟨hlow, hhigh, hflags⟩ := hcell
  obtain ⟨entries, markers, hsound⟩ := run.sound htame (Nat.le_trans hij hj)
  have hfst : header < (run.moment i).machine.dictionary.latest :=
    Nat.lt_of_le_of_ne (hsound.orderly.header_le_latest hhdr) holder
  have hlast : (run.moment j).machine.HasHeader header ∧ header < (run.moment j).machine.dictionary.latest ∧
      (run.moment j).machine.memory.byteAt addr = run.byteAt i addr := by
    refine run.lasting htame (fun moment => moment.machine.HasHeader header ∧
      header < moment.machine.dictionary.latest ∧ moment.machine.memory.byteAt addr = run.byteAt i addr) ?_ hij hj
      ⟨hhdr, hfst, rfl⟩
    rintro before after entries revised markers later _ hbefore hafter hev ⟨hhdr, hlatest, hbyte⟩
    have hkept := hev.hasHeader hbefore.orderly hafter.orderly (hbefore.orderly.hasHeader_latest hbefore.nonempty)
    refine ⟨hev.hasHeader hbefore.orderly hafter.orderly hhdr,
      Nat.lt_of_lt_of_le hlatest (hafter.orderly.header_le_latest hkept), ?_⟩
    obtain ⟨hstart, hend⟩ := hbefore.orderly.header_bounds hhdr
    have hused : before.machine.Used addr := .inl ⟨by omega, by omega⟩
    refine (hev.bytes addr hused fun halters => ?_).trans hbyte
    rcases hbefore.of_alters hhdr hlow hhigh halters with ⟨-, -, hin, -⟩ | ⟨-, -, hin, -⟩ | ⟨-, heq, -⟩
    · exact hflags hin
    · exact hflags hin
    · omega
  exact hlast.2.2

/-- When `;` has ended a definition, what stands from its body up to the end of the code never changes, but for the
headers in it. -/
theorem byteAt_of_closes (hkj : k < j) (hj : j ≤ run.last) {token : Nat}
    (hcloses : (run.moment k).Closes (run.moment (k + 1)) token) (hlow : body token ≤ addr)
    (hhigh : addr < (run.moment (k + 1)).machine.dictionary.here)
    (hapart : ¬ (run.moment (k + 1)).machine.InHeader addr) : run.byteAt j addr = run.byteAt (k + 1) addr := by
  obtain ⟨hprim, htaken, hfault⟩ := hcloses
  obtain ⟨entries, markers, hsound⟩ := run.sound htame (by omega : k ≤ run.last)
  rw [hsound.orderly.markers_eq] at htaken
  obtain ⟨hhdr, htoken⟩ := hsound.orderly.hasHeader_ofToken (htaken ▸ List.mem_cons_self)
  have hstart := (hsound.orderly.header_bounds hhdr).1
  rw [← htoken, body, Header.token] at hlow
  refine byteAt_of_settled htame hkj hj ⟨.inl ⟨by omega, hhigh⟩, hapart, fun hawaited => ?_⟩
  -- the marker was the only one
  rcases hsound.semicolon (run.step k (by omega)) hprim with ⟨-, _, -, revised, hrevised, -⟩ | ⟨hfailed, -⟩
  · obtain ⟨marker, hnone, -⟩ := hrevised.awaited_iff.1 hawaited
    cases hnone
  · exact hfailed hfault

end Run

/-- The dictionary is append-only. In a run where no word stores into memory and no code is taken back, a byte in
use stays in use, and it changes only if `;` or `IMMEDIATE` change the flags of a header, `DOES>` changes the code of
the newest header, or a control word resolves a branch. A resolved branch is never changed again, and neither are the
code of an older word, the body of a word that `;` has ended, or any other byte that belongs to no header and to no
open branch. -/
theorem Run.dictionary_appendOnly (run : Run) (htame : run.Tame) :
    (∀ i j address, i ≤ j → j ≤ run.last → (run.moment i).machine.Used address →
      (run.moment j).machine.Used address ∧ (run.byteAt j address = run.byteAt i address ∨
        ∃ k, i ≤ k ∧ k < j ∧ (run.moment k).Alters (run.moment (k + 1)) address)) ∧
    (∀ k address, k < run.last → (run.moment k).Alters (run.moment (k + 1)) address →
      (run.moment k).machine.InHeader address ∨ (run.moment k).machine.Awaited address) ∧
    (∀ k j address, k < j → j ≤ run.last →
      Resolved (run.moment k).machine.markers (run.moment (k + 1)).machine.markers address →
        run.byteAt j address = run.byteAt (k + 1) address) ∧
    (∀ i j address, i ≤ j → j ≤ run.last → (run.moment i).machine.Settled address →
      run.byteAt j address = run.byteAt i address) ∧
    (∀ k j token address, k < j → j ≤ run.last → (run.moment k).Closes (run.moment (k + 1)) token →
      Header.body token ≤ address → address < (run.moment (k + 1)).machine.dictionary.here →
        ¬ (run.moment (k + 1)).machine.InHeader address → run.byteAt j address = run.byteAt (k + 1) address) ∧
    ∀ i j header address, i ≤ j → j ≤ run.last → (run.moment i).machine.HasHeader header →
      header ≠ (run.moment i).machine.dictionary.latest →
        InCell (Header.token header) address ∨ InCell (Header.doesField header) address →
          run.byteAt j address = run.byteAt i address := by
  refine ⟨fun i j address hij hj hused => ?_, fun k address hk halters => ?_, fun k j address hkj hj hresolved => ?_,
    fun i j address hij hj hsettled => ?_, fun k j token address hkj hj hcloses hlow hhigh hapart => ?_,
    fun i j header address hij hj hheader holder hin => ?_⟩
  · exact ⟨used_of_le htame hij hj hused, byteAt_eq_or_alters htame hij hj hused⟩
  · obtain ⟨entries, markers, hsound⟩ := run.sound htame (Nat.le_of_lt hk)
    exact hsound.inHeader_or_awaited halters
  · exact byteAt_of_resolved htame hkj hj hresolved
  · exact byteAt_of_settled htame hij hj hsettled
  · exact byteAt_of_closes htame hkj hj hcloses hlow hhigh hapart
  · exact byteAt_of_older htame hij hj hheader holder hin

/-- The dictionary of a session that defines a word. -/
theorem Run.dictionary_appendOnly_of_definition : ∃ run : Run, run.Tame ∧
    (∃ k m header, k < m ∧ m < run.last ∧ (run.moment k).Creates (run.moment (k + 1)) header ∧
      (run.moment m).Closes (run.moment (m + 1)) (Header.token header)) ∧
    ∀ address, (run.moment 0).machine.Used address → (run.moment run.last).machine.Used address ∧
      (run.byteAt run.last address = run.byteAt 0 address ∨
        ∃ k, 0 ≤ k ∧ k < run.last ∧ (run.moment k).Alters (run.moment (k + 1)) address) := by
  obtain ⟨run, k, m, header, htame, hkm, hm, hcreates, hcloses⟩ := Run.exists_definition
  exact ⟨run, htame, ⟨k, m, header, hkm, hm, hcreates, hcloses⟩,
    fun address hused => (run.dictionary_appendOnly htame).1 0 run.last address (Nat.zero_le _) (Nat.le_refl _) hused⟩

end ThreadedForth
