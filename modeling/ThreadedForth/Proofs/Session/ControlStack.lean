
import ThreadedForth.Proofs.Compiler.Placeholders
import ThreadedForth.Proofs.Session.Runs

/-!
# The control stack

Whatever is typed, and wherever it fails, the control stack holds whole markers: it never has one half of a marker, a
tag that means nothing, or a marker for a cell that is no longer there to be patched. Only storing into memory, or
taking back code, could bring it out of order.
-/

namespace ThreadedForth

open Dictionary WordM List

/-- A marker as the control stack holds it, the deeper cell first. -/
def Marker.cells (marker : Marker) : List Cell := [Cell.ofNat marker.address, marker.tag.toCell]

/-- The control stack holds these markers, the oldest first. That of a definition can only be the oldest. Those that
wait for a branch target carry addresses of cells of the code, no two the same, and each cell still holds zero. -/
structure Machine.HasMarkers (m : Machine) (markers : List Marker) : Prop where
  contents_eq : m.control.contents m.memory = .ok (markers.flatMap Marker.cells)
  colon : ∀ marker ∈ markers.tail, marker.tag ≠ .colon
  pending : ∀ marker ∈ markers, marker.tag.isForward = true →
    marker.address % 4 = 0 ∧ Layout.dictionaryStart ≤ marker.address ∧
      marker.address + 4 ≤ m.dictionary.here ∧ m.memory.readCell marker.address = .ok 0
  distinct : ((markers.filter (·.tag.isForward)).map (·.address)).Nodup

section Markers

variable {entries : List Header} {markers : List Marker} {m : Machine}

theorem HoldsMarkers.holdsItems {memory : Memory} {top : Nat} (hholds : HoldsMarkers memory top markers)
    (haddrs : ∀ marker ∈ markers, marker.address < 2 ^ 31) :
    HoldsItems memory top (markers.flatMap fun marker => marker.cells.reverse) := by
  induction markers generalizing top with
  | nil => exact nofun
  | cons marker rest ih =>
    obtain ⟨htag, haddr, hrest⟩ := hholds
    have hlow := haddrs marker mem_cons_self
    have hcell : memory.cellAt (top + 4) = Cell.ofNat marker.address := by
      rw [← haddr, Cell.ofNat_toAddress (haddr ▸ hlow)]
    have hothers := ih hrest fun other hother => haddrs other (mem_cons_of_mem _ hother)
    exact .cons htag (.cons hcell hothers)

theorem Orderly.carries (hord : Orderly entries markers [] m) :
    m.control.Carries m.memory (markers.flatMap fun marker => marker.cells.reverse) := by
  have hlen : (markers.flatMap fun marker => marker.cells.reverse).length = 2 * markers.length := by
    simp [Marker.cells, Nat.mul_comm]
  have htop := hord.top_eq
  exact ⟨by omega, hord.held.holdsItems hord.seats.addresses⟩

theorem Orderly.contents_eq (hord : Orderly entries markers [] m) :
    m.control.contents m.memory = .ok (markers.reverse.flatMap Marker.cells) := by
  rw [hord.carries.contents_eq (hord.bounded.control.stands hord.bounded.size_eq), reverse_flatMap]
  simp [Function.comp_def]

theorem Seated.nodup {here : Nat} (hseated : Seated entries here markers) :
    ((markers.filter (·.tag.isForward)).map (·.address)).Nodup := by
  refine pairwise_map.2 (pairwise_filter.2 (hseated.distinct.imp fun hapart hfst hsnd => ?_))
  have := hapart hfst hsnd
  omega

theorem Waiting.hasMarkers (hwaiting : Waiting entries [] m) : ∃ markers, m.HasMarkers markers := by
  obtain ⟨markers, hord, hvac, hgr, -⟩ := hwaiting
  rw [append_nil] at hvac
  refine ⟨markers.reverse, hord.contents_eq, fun marker hmark => ?_, fun marker hmark hfwd => ?_, ?_⟩
  · rw [tail_reverse, mem_reverse] at hmark
    exact hgr marker hmark
  · rw [mem_reverse] at hmark
    obtain ⟨halign, hzero⟩ := hvac marker hmark hfwd
    obtain ⟨hlow, hhigh, -⟩ := hord.seats.places marker hmark hfwd
    have hroom : marker.address + 4 ≤ m.memory.size := by
      have hhere := hord.here_le
      have hnames := hord.names_le
      have horder := Layout.order
      rw [hord.bounded.size_eq]
      omega
    have hread := Memory.readCell_eq_ok hroom halign
    exact ⟨halign, hlow, hhigh, hread.trans (congrArg Except.ok hzero)⟩
  · rw [filter_reverse, map_reverse, nodup_reverse]
    exact hord.seats.nodup

theorem Orderly.waiting (hord : Orderly entries [] [] m) : Waiting entries [] m :=
  ⟨[], hord, nofun, nofun, nofun⟩

end Markers

/-! ### Runs -/

theorem Moment.Sound.waiting {before after : Moment} {entries others : List Header} {markers : List Marker}
    (hsound : Sound entries markers before) (htame : before.Tame) (hstep : before.Step after)
    (hwaiting : Waiting others [] before.machine) : ∃ revised, Waiting revised [] after.machine := by
  cases hprim : before.prim? with
  | some prim =>
    have hothers : others ≠ [] := by
      obtain ⟨_, hord, -⟩ := hwaiting
      obtain ⟨entry, hentry, -⟩ := hord.hasHeader_iff.1 (hsound.orderly.hasHeader_latest hsound.nonempty)
      exact ne_nil_of_mem hentry
    rw [(hstep.of_prim? hprim).1]
    exact Prim.perform_waiting hwaiting hothers (htame prim hprim)
  | none =>
    rcases hstep.calm hsound hprim with hcalm | hrecover
    · exact ⟨others, hwaiting.calm hcalm⟩
    · rw [hrecover]
      exact ⟨entries, hsound.orderly.recover.1.waiting⟩

theorem Run.waiting (run : Run) (htame : run.Tame) {n : Nat} (hn : n ≤ run.last) :
    ∃ entries, Waiting entries [] (run.moment n).machine := by
  induction n with
  | zero =>
    obtain ⟨entries, hord, -⟩ := run.started.orderly
    exact ⟨entries, hord.waiting⟩
  | succ n ih =>
    obtain ⟨others, hwaiting⟩ := ih (by omega)
    obtain ⟨entries, markers, hsound⟩ := run.sound htame (Nat.le_of_lt hn)
    exact hsound.waiting (htame n hn) (run.step n hn) hwaiting

/-- The control stack is always in order. In a run where no word stores into memory and no code is taken back, it
holds whole markers at every moment, also after a fault, and the cells that they wait for are there and still hold
zero. It is empty after every `;` that ends without a fault. -/
theorem Run.controlStack_inOrder (run : Run) (htame : run.Tame) :
    (∀ n ≤ run.last, ∃ markers, (run.moment n).machine.HasMarkers markers) ∧
    ∀ k < run.last, (run.moment k).prim? = some (.defining .semicolon) → (run.moment (k + 1)).fault = none →
      (run.moment (k + 1)).machine.control.contents (run.moment (k + 1)).machine.memory = .ok [] := by
  refine ⟨fun n hn => ?_, fun k hk hprim hfault => ?_⟩
  · obtain ⟨entries, hwaiting⟩ := run.waiting htame hn
    exact hwaiting.hasMarkers
  · obtain ⟨entries, markers, hsound⟩ := run.sound htame (Nat.le_of_lt hk)
    rcases hsound.semicolon (run.step k hk) hprim with ⟨-, token, -, revised, horderly, -⟩ | ⟨hfailed, -⟩
    · exact horderly.contents_eq
    · exact absurd hfault hfailed

/-- The control stack of a session that defines a word: it is in order all along, and empty in the end. -/
theorem Run.controlStack_inOrder_of_definition : ∃ (run : Run) (m : Nat), run.Tame ∧ m < run.last ∧
    (run.moment m).prim? = some (.defining .semicolon) ∧ (run.moment (m + 1)).fault = none ∧
    (∀ n ≤ run.last, ∃ markers, (run.moment n).machine.HasMarkers markers) ∧
    (run.moment (m + 1)).machine.control.contents (run.moment (m + 1)).machine.memory = .ok [] := by
  obtain ⟨run, k, m, header, htame, hkm, hm, hcreates, hprim, -, hfault⟩ := Run.exists_definition
  exact ⟨run, m, htame, hm, hprim, hfault, (run.controlStack_inOrder htame).1,
    (run.controlStack_inOrder htame).2 m hm hprim hfault⟩

end ThreadedForth
