
import ThreadedForth.Proofs.Compiler.Chunk
import ThreadedForth.Proofs.Compiler.Site

/-!
# Branches

Read from its first cell on, a definition is a row of instructions, each a cell with the operands its
word takes from the thread. `Boundary` holds of the addresses where one of them starts.

While a definition is compiled, `Draft.Coded` holds: a branch either waits for its target, and then a
marker knows the cell of its offset, or it goes to a boundary. No control word loses a branch that
waits, so none is left once every structure is closed.
-/

namespace ThreadedForth

open Draft List

theorem Prim.ofToken?_token (prim : Prim) : Prim.ofToken? (Cell.ofNat prim.token) = some prim := by
  have hcount : prim.index < 180 := prim.index_lt_count
  have htoken : prim.token = Header.token Layout.dictionaryStart + Header.size * prim.index := by
    simp only [Prim.token, Header.token, Header.size]
    omega
  have hfst : Header.token Layout.dictionaryStart + Header.size * prim.index < 2 ^ 31 := by
    change 1428 + 16 + 20 * prim.index < 2 ^ 31
    omega
  rw [Prim.ofToken?, htoken]
  simp only [Cell.toNatClampNeg_ofNat hfst, Nat.add_sub_cancel_left]
  rw [if_pos ⟨Nat.le_add_right _ _, Nat.mul_mod_right _ _⟩, Nat.mul_div_cancel_left _ (by decide)]
  exact Prim.ofIndex?_index prim

theorem Prim.ofToken?_of_token {cell : Cell} {prim : Prim} (hcell : cell = Cell.ofNat prim.token) :
    Prim.ofToken? cell = some prim := by
  rw [hcell, Prim.ofToken?_token]

/-! ### Instructions -/

/-- The cell calls a word that takes an offset. -/
def Jumps (cell : Cell) : Prop :=
  ∃ word, Prim.ofToken? cell = some (.thread word) ∧ Instruction.takesOffset word = true

/-- The cell calls a word that takes nothing from the thread. -/
def Plain (cell : Cell) : Prop :=
  ∀ word, Prim.ofToken? cell = some (.thread word) →
    word ≠ .lit ∧ word ≠ .twoLit ∧ word ≠ .textLit ∧ Instruction.takesOffset word = false

/-- The address after the instruction at an address. -/
def instructionEnd (cells : Nat → Cell) (address : Nat) : Nat :=
  match Prim.ofToken? (cells address) with
  | some (.thread .lit) => address + 8
  | some (.thread .twoLit) => address + 12
  | some (.thread .textLit) => aligned (address + 8 + (cells (address + 4)).toNatClampNeg)
  | some (.thread word) => if Instruction.takesOffset word then address + 8 else address + 4
  | _ => address + 4

/-- Where an instruction starts, counted from the first one. -/
def instructionStart (cells : Nat → Cell) (first : Nat) : Nat → Nat
  | 0 => first
  | index + 1 => instructionEnd cells (instructionStart cells first index)

/-- An instruction starts at the address. -/
def Boundary (cells : Nat → Cell) (first address : Nat) : Prop :=
  ∃ index, instructionStart cells first index = address

theorem plain_token {prim : Prim} (hprim : ∀ word, prim = .thread word →
    word ≠ .lit ∧ word ≠ .twoLit ∧ word ≠ .textLit ∧ Instruction.takesOffset word = false) :
    Plain (Cell.ofNat prim.token) := by
  intro word hword
  rw [Prim.ofToken?_token] at hword
  exact hprim word (Option.some.inj hword)

theorem jumps_token {word : ThreadWord} (hword : Instruction.takesOffset word = true) :
    Jumps (Cell.ofNat (Prim.thread word).token) :=
  ⟨word, Prim.ofToken?_token _, hword⟩

section

variable {cells other : Nat → Cell} {first here addr : Nat}

/-- What a word takes from the thread decides how long its instruction is. -/
theorem instructionEnd_of_thread {word : ThreadWord} (hword : Prim.ofToken? (cells addr) = some (.thread word)) :
    instructionEnd cells addr =
      match (motive := ThreadWord → Nat) word with
      | .lit => addr + 8
      | .twoLit => addr + 12
      | .textLit => aligned (addr + 8 + (cells (addr + 4)).toNatClampNeg)
      | word => if Instruction.takesOffset word then addr + 8 else addr + 4 := by
  rw [instructionEnd, hword]
  cases word <;> rfl

theorem instructionEnd_of_jumps (hjumps : Jumps (cells addr)) : instructionEnd cells addr = addr + 8 := by
  obtain ⟨word, hword, htakes⟩ := hjumps
  have hend := instructionEnd_of_thread hword
  cases word <;> first | cases htakes; done | exact hend

theorem instructionEnd_of_lit (hcell : cells addr = Cell.ofNat (Prim.thread .lit).token) :
    instructionEnd cells addr = addr + 8 :=
  instructionEnd_of_thread (Prim.ofToken?_of_token hcell)

theorem instructionEnd_of_twoLit (hcell : cells addr = Cell.ofNat (Prim.thread .twoLit).token) :
    instructionEnd cells addr = addr + 12 :=
  instructionEnd_of_thread (Prim.ofToken?_of_token hcell)

theorem instructionEnd_of_textLit (hcell : cells addr = Cell.ofNat (Prim.thread .textLit).token) :
    instructionEnd cells addr = aligned (addr + 8 + (cells (addr + 4)).toNatClampNeg) :=
  instructionEnd_of_thread (Prim.ofToken?_of_token hcell)

theorem not_jumps_token {prim : Prim} (hprim : ∀ word, prim = .thread word → Instruction.takesOffset word = false) :
    ¬ Jumps (Cell.ofNat prim.token) := by
  rintro ⟨word, hword, htakes⟩
  rw [Prim.ofToken?_token] at hword
  rw [hprim word (Option.some.inj hword)] at htakes
  cases htakes

theorem Plain.not_jumps {cell : Cell} (hplain : Plain cell) : ¬ Jumps cell := by
  rintro ⟨word, hword, htakes⟩
  cases (hplain word hword).2.2.2.symm.trans htakes

/-- What the instruction at an address takes from the thread: nothing, a cell, a double, a text or an offset. -/
theorem instructionEnd_cases (cells : Nat → Cell) (addr : Nat) :
    (Plain (cells addr) ∧ instructionEnd cells addr = addr + 4) ∨
      (Prim.ofToken? (cells addr) = some (.thread .lit) ∧ instructionEnd cells addr = addr + 8) ∨
      (Prim.ofToken? (cells addr) = some (.thread .twoLit) ∧ instructionEnd cells addr = addr + 12) ∨
      (Prim.ofToken? (cells addr) = some (.thread .textLit) ∧
        instructionEnd cells addr = aligned (addr + 8 + (cells (addr + 4)).toNatClampNeg)) ∨
      (Jumps (cells addr) ∧ instructionEnd cells addr = addr + 8) := by
  by_cases hthread : ∃ word, Prim.ofToken? (cells addr) = some (.thread word)
  · obtain ⟨word, hword⟩ := hthread
    have hend := instructionEnd_of_thread hword
    cases word with
    | lit => exact .inr (.inl ⟨hword, hend⟩)
    | twoLit => exact .inr (.inr (.inl ⟨hword, hend⟩))
    | textLit => exact .inr (.inr (.inr (.inl ⟨hword, hend⟩)))
    | branch | zeroBranch | enterDo | enterQuestionDo | stepLoop | stepPlusLoop | testOf =>
      exact .inr (.inr (.inr (.inr ⟨⟨_, hword, rfl⟩, hend⟩)))
    | exit | unloop | setDoes | testAbort | execute =>
      refine .inl ⟨fun other hother => ?_, hend⟩
      cases hword.symm.trans hother
      decide
  · refine .inl ⟨fun word hword => absurd ⟨word, hword⟩ hthread, ?_⟩
    rw [instructionEnd]
    cases hprim : Prim.ofToken? (cells addr) with
    | none => rfl
    | some prim =>
      cases prim with
      | thread word => exact absurd ⟨word, hprim⟩ hthread
      | _ => rfl

theorem instructionEnd_of_plain (hplain : Plain (cells addr)) : instructionEnd cells addr = addr + 4 := by
  rcases instructionEnd_cases cells addr with ⟨_, hend⟩ | ⟨hword, _⟩ | ⟨hword, _⟩ | ⟨hword, _⟩ | ⟨hjumps, _⟩
  · exact hend
  · exact absurd rfl (hplain _ hword).1
  · exact absurd rfl (hplain _ hword).2.1
  · exact absurd rfl (hplain _ hword).2.2.1
  · exact absurd hjumps hplain.not_jumps

theorem add_four_le_instructionEnd (cells : Nat → Cell) (addr : Nat) :
    addr + 4 ≤ instructionEnd cells addr := by
  rcases instructionEnd_cases cells addr with ⟨_, hend⟩ | ⟨_, hend⟩ | ⟨_, hend⟩ | ⟨_, hend⟩ | ⟨_, hend⟩
  case inr.inr.inr.inl =>
    rw [hend]
    exact Nat.le_trans (by omega) (le_aligned _)
  all_goals omega

theorem instructionEnd_mod (halign : addr % 4 = 0) : instructionEnd cells addr % 4 = 0 := by
  rcases instructionEnd_cases cells addr with ⟨_, hend⟩ | ⟨_, hend⟩ | ⟨_, hend⟩ | ⟨_, hend⟩ | ⟨_, hend⟩
  case inr.inr.inr.inl =>
    rw [hend]
    exact aligned_mod _
  all_goals omega

/-- Two rows of cells are the same from `first` up to `bound`. -/
def Agree (first bound : Nat) (cells other : Nat → Cell) : Prop :=
  ∀ inner, first ≤ inner → inner + 4 ≤ bound → inner % 4 = 0 → other inner = cells inner

variable {bound : Nat}

theorem Agree.symm (hagree : Agree first bound cells other) : Agree first bound other cells :=
  fun inner hlow hhigh halign => (hagree inner hlow hhigh halign).symm

theorem Chunk.agree {values : List Cell} {markers : List Marker} {draft next : Draft}
    (hchunk : Chunk values markers draft next) (first : Nat) : Agree first draft.here draft.cells next.cells :=
  fun inner _ hinner _ => hchunk.below inner (by omega)

theorem instructionEnd_congr (hagree : Agree first bound cells other) (hfst : first ≤ addr)
    (halign : addr % 4 = 0) (hend : instructionEnd cells addr ≤ bound) :
    instructionEnd other addr = instructionEnd cells addr := by
  have hlow := add_four_le_instructionEnd cells addr
  have hcell := hagree addr hfst (by omega) halign
  have htoken := congrArg Prim.ofToken? hcell
  rcases instructionEnd_cases cells addr with
    ⟨hplain, heq⟩ | ⟨hword, heq⟩ | ⟨hword, heq⟩ | ⟨hword, heq⟩ | ⟨hjumps, heq⟩
  · rw [heq, instructionEnd_of_plain (hcell ▸ hplain)]
  · exact (instructionEnd_of_thread (htoken.trans hword)).trans heq.symm
  · exact (instructionEnd_of_thread (htoken.trans hword)).trans heq.symm
  · -- Of a text, the count is read too, and it lies below the bound.
    have hlong : addr + 8 ≤ instructionEnd cells addr := by
      rw [heq]
      exact Nat.le_trans (Nat.le_add_right _ _) (le_aligned _)
    rw [heq, ← hagree (addr + 4) (by omega) (by omega) (by omega)]
    exact instructionEnd_of_thread (htoken.trans hword)
  · rw [heq, instructionEnd_of_jumps (hcell ▸ hjumps)]

/-! ### Boundaries -/

theorem instructionStart_le {index last : Nat} (hle : index ≤ last) :
    instructionStart cells first index ≤ instructionStart cells first last := by
  induction hle with
  | refl => exact Nat.le_refl _
  | @step middle _ ih =>
    have hnext := add_four_le_instructionEnd cells (instructionStart cells first middle)
    exact Nat.le_trans ih (Nat.le_trans (Nat.le_add_right _ 4) hnext)

namespace Boundary

theorem start (cells : Nat → Cell) (first : Nat) : Boundary cells first first := ⟨0, rfl⟩

variable (hbdry : Boundary cells first addr)

include hbdry

theorem next : Boundary cells first (instructionEnd cells addr) := by
  obtain ⟨index, rfl⟩ := hbdry
  exact ⟨index + 1, rfl⟩

theorem first_le : first ≤ addr := by
  obtain ⟨index, rfl⟩ := hbdry
  exact instructionStart_le (Nat.zero_le index)

theorem end_le {later : Nat}
    (hlater : Boundary cells first later) (hlt : addr < later) : instructionEnd cells addr ≤ later := by
  obtain ⟨index, rfl⟩ := hbdry
  obtain ⟨last, rfl⟩ := hlater
  have hindex : index + 1 ≤ last := by
    apply Nat.lt_of_not_le
    intro hle
    exact Nat.not_lt_of_le (instructionStart_le hle) hlt
  exact instructionStart_le hindex

theorem mod_eq (hfst : first % 4 = 0) : addr % 4 = 0 := by
  obtain ⟨index, rfl⟩ := hbdry
  induction index with
  | zero => exact hfst
  | succ index ih => exact instructionEnd_mod ih

theorem congr {bound : Nat} (hfst : first % 4 = 0)
    (hagree : Agree first bound cells other) (hle : addr ≤ bound) : Boundary other first addr := by
  obtain ⟨index, rfl⟩ := hbdry
  refine ⟨index, ?_⟩
  induction index with
  | zero => rfl
  | succ index ih =>
    have hstart : Boundary cells first (instructionStart cells first index) := ⟨index, rfl⟩
    have hnext := add_four_le_instructionEnd cells (instructionStart cells first index)
    rw [instructionStart] at hle ⊢
    rw [ih (by omega), instructionEnd_congr hagree hstart.first_le (hstart.mod_eq hfst) hle,
      instructionStart]

end Boundary

theorem instructionStart_put (hbdry : Boundary cells first addr) (hjumps : Jumps (cells addr))
    (offset : Cell) (index : Nat) :
    instructionStart (put cells (addr + 4) offset) first index = instructionStart cells first index := by
  induction index with
  | zero => rfl
  | succ index ih =>
    rw [instructionStart, instructionStart, ih]
    have hend := instructionEnd_of_jumps hjumps
    have hapart : instructionStart cells first index ≠ addr + 4 := by
      intro heq
      have hle := hbdry.end_le ⟨index, rfl⟩ (by omega)
      omega
    by_cases hsame : instructionStart cells first index = addr
    · rw [hsame, hend, instructionEnd_of_jumps]
      rwa [put_of_ne _ _ (by omega)]
    · rw [instructionEnd, instructionEnd, put_of_ne _ _ hapart, put_of_ne _ _ (by omega)]

theorem boundary_put_iff (hbdry : Boundary cells first addr) (hjumps : Jumps (cells addr))
    (offset : Cell) {place : Nat} :
    Boundary (put cells (addr + 4) offset) first place ↔ Boundary cells first place :=
  exists_congr fun index => by rw [instructionStart_put hbdry hjumps]

/-! ### Branches that wait -/

/-- The branch at an address goes to an instruction, not beyond `here`. -/
def Lands (cells : Nat → Cell) (first here address : Nat) : Prop :=
  cells (address + 4) ≠ 0 ∧ ∃ target, Boundary cells first target ∧ target ≤ here ∧
    (target : Int) = (address + 4 : Nat) + (cells (address + 4)).toInt

/-- The code up to `here` is whole instructions, and each of its branches lands or is pending. -/
structure Coded (cells : Nat → Cell) (first here : Nat) (pending : Nat → Prop) : Prop where
  isAligned : first % 4 = 0
  finish : Boundary cells first here
  branches : ∀ address, Boundary cells first address → address < here → Jumps (cells address) →
    pending (address + 4) ∨ Lands cells first here address
  placeholders : ∀ place, pending place →
    ∃ address, place = address + 4 ∧ Boundary cells first address ∧ address < here ∧ Jumps (cells address)

theorem Lands.congr {finish : Nat} (hlands : Lands cells first here addr)
    (hbdry : Boundary cells first addr) (hfst : first % 4 = 0) (haddr : addr + 8 ≤ here)
    (hagree : Agree first here cells other) (hfin : here ≤ finish) : Lands other first finish addr := by
  obtain ⟨hoff, target, htarget, hle, hdist⟩ := hlands
  have hlow := hbdry.first_le
  have halign := hbdry.mod_eq hfst
  rw [← hagree (addr + 4) (by omega) (by omega) (by omega)] at hoff hdist
  exact ⟨hoff, target, htarget.congr hfst hagree hle, by omega, hdist⟩

namespace Coded

variable {pending wider : Nat → Prop}

section

variable (hcoded : Coded cells first here pending)

include hcoded

theorem congr (hsame : ∀ place, pending place ↔ wider place) : Coded cells first here wider :=
  (funext fun place => propext (hsame place) : pending = wider) ▸ hcoded

theorem address_end_le (hbdry : Boundary cells first addr)
    (hlt : addr < here) (hjumps : Jumps (cells addr)) : addr + 8 ≤ here := by
  rw [← instructionEnd_of_jumps hjumps]
  exact hbdry.end_le hcoded.finish hlt

/-- Another instruction is laid down. If it is a branch, it lands or is pending from now on. -/
theorem append (hagree : Agree first here cells other) (hwider : ∀ place, pending place → wider place)
    (hbr : Jumps (other here) →
      wider (here + 4) ∨ Lands other first (instructionEnd other here) here)
    (hnew : ∀ place, wider place → pending place ∨ place = here + 4 ∧ Jumps (other here)) :
    Coded other first (instructionEnd other here) wider := by
  have hfst := hcoded.isAligned
  have hfin := hcoded.finish.congr hfst hagree (Nat.le_refl here)
  have hgrow := add_four_le_instructionEnd other here
  refine ⟨hfst, hfin.next, fun addr hbdry hlt hjumps => ?_, fun place hplace => ?_⟩
  · by_cases hold : addr < here
    · have hend := hbdry.end_le hfin hold
      have hlow := hbdry.first_le
      have halign := hbdry.mod_eq hfst
      rw [instructionEnd_of_jumps hjumps] at hend
      rw [hagree addr hlow (by omega) halign] at hjumps
      have hbdry := hbdry.congr hfst hagree.symm (by omega)
      rcases hcoded.branches addr hbdry hold hjumps with hpending | hlands
      · exact .inl (hwider _ hpending)
      · exact .inr (hlands.congr hbdry hfst hend hagree (by omega))
    · by_cases hsame : addr = here
      · subst hsame
        exact hbr hjumps
      · have hend := hfin.end_le hbdry (by omega)
        omega
  · rcases hnew place hplace with hpending | ⟨rfl, hjumps⟩
    · obtain ⟨addr, rfl, hbdry, hlt, hjumps⟩ := hcoded.placeholders place hpending
      have hend := hcoded.address_end_le hbdry hlt hjumps
      refine ⟨addr, rfl, hbdry.congr hfst hagree (by omega), by omega, ?_⟩
      rwa [hagree addr hbdry.first_le (by omega) (hbdry.mod_eq hfst)]
    · exact ⟨here, rfl, hfin, by omega, hjumps⟩

end

/-- A pending branch is made to end at `here`. -/
theorem patch (hcoded : Coded cells first here pending) {place : Nat} (hplace : pending place)
    (hhere : here < 2 ^ 31) (hmost : ∀ inner, pending inner → inner ≠ place → wider inner)
    (hless : ∀ inner, wider inner → pending inner) :
    Coded (put cells place (Cell.ofNat here - Cell.ofNat place)) first here wider := by
  obtain ⟨addr, rfl, hbdry, hlt, hjumps⟩ := hcoded.placeholders place hplace
  have hend := hcoded.address_end_le hbdry hlt hjumps
  have hboundaries := @boundary_put_iff cells first addr hbdry hjumps
    (Cell.ofNat here - Cell.ofNat (addr + 4))
  have hapart : ∀ start, Boundary cells first start → start ≠ addr + 4 := by
    rintro start hstart rfl
    have hle := hbdry.end_le hstart (by omega)
    rw [instructionEnd_of_jumps hjumps] at hle
    omega
  refine ⟨hcoded.isAligned, hboundaries.2 hcoded.finish, fun start hstart hstartLt hstartJumps => ?_, fun inner hinner => ?_⟩
  · have hstart := hboundaries.1 hstart
    rw [put_of_ne _ _ (hapart start hstart)] at hstartJumps
    by_cases hsame : start = addr
    · subst hsame
      refine .inr ⟨?_, here, hboundaries.2 hcoded.finish, Nat.le_refl here, ?_⟩
      · rw [put_self]
        intro hzero
        have hdist := Cell.toInt_ofNat_sub_ofNat hhere (show start + 4 < 2 ^ 31 by omega)
        rw [hzero] at hdist
        change (0 : Int) = _ at hdist
        omega
      · rw [put_self, Cell.toInt_ofNat_sub_ofNat hhere (by omega)]
        omega
    · rcases hcoded.branches start hstart hstartLt hstartJumps with hpending | hlands
      · exact .inl (hmost _ hpending (by omega))
      · obtain ⟨hoff, target, htarget, hle, hdist⟩ := hlands
        refine .inr ⟨?_, target, hboundaries.2 htarget, hle, ?_⟩
        · rwa [put_of_ne _ _ (by omega)]
        · rwa [put_of_ne _ _ (by omega)]
  · obtain ⟨start, rfl, hstart, hstartLt, hstartJumps⟩ := hcoded.placeholders inner (hless inner hinner)
    refine ⟨start, rfl, hboundaries.2 hstart, hstartLt, ?_⟩
    rwa [put_of_ne _ _ (hapart start hstart)]

end Coded

end

/-! ### Drafts -/

/-- The marker is the target of branches to come. -/
def Tag.isTarget : Tag → Bool
  | begin | doBack => true
  | _ => false

/-- A marker knows the offset cell at an address. -/
def Awaits (markers : List Marker) (place : Nat) : Prop :=
  ∃ marker ∈ markers, marker.tag.isForward = true ∧ marker.address = place

theorem awaits_cons (marker : Marker) (rest : List Marker) (place : Nat) :
    Awaits (marker :: rest) place ↔
      marker.tag.isForward = true ∧ marker.address = place ∨ Awaits rest place := by
  simp [Awaits]

theorem awaits_insert (above below : List Marker) (found : Marker) (place : Nat) :
    Awaits (above ++ found :: below) place ↔
      found.tag.isForward = true ∧ found.address = place ∨ Awaits (above ++ below) place := by
  simp only [Awaits, List.mem_append, List.mem_cons]
  grind

/-- What a marker says about the code: a target is an instruction, and the definition starts after the
header that the oldest marker names. -/
structure Marker.Sound (cells : Nat → Cell) (first here : Nat) (marker : Marker) : Prop where
  target : marker.tag.isTarget = true → Boundary cells first marker.address ∧ marker.address ≤ here
  header : marker.tag = .colon → Header.body marker.address = first

variable {marker : Marker}

theorem Marker.Sound.extend {cells other : Nat → Cell} {first here finish : Nat}
    (hsound : marker.Sound cells first here) (hfst : first % 4 = 0)
    (hagree : Agree first here cells other) (hfin : here ≤ finish) : marker.Sound other first finish := by
  refine ⟨fun htarget => ?_, hsound.header⟩
  obtain ⟨hbdry, hle⟩ := hsound.target htarget
  exact ⟨hbdry.congr hfst hagree hle, by omega⟩

theorem Marker.sound_of_forward (htag : marker.tag.isForward = true)
    (cells : Nat → Cell) (first here : Nat) : marker.Sound cells first here := by
  constructor
  · intro htarget
    cases hmark : marker.tag <;> simp_all [Tag.isForward, Tag.isTarget]
  · intro hcolon
    rw [hcolon] at htag
    cases htag

/-- Every branch lands, or is known to a marker, or is one of those still in hand. -/
structure Draft.Tracked (first : Nat) (inHand : List Nat) (draft : Draft) : Prop where
  here_le : draft.here ≤ draft.names
  names_lt : draft.names < 2 ^ 30
  coded : Coded draft.cells first draft.here fun place => Awaits draft.markers place ∨ place ∈ inHand
  markers : ∀ marker ∈ draft.markers, marker.Sound draft.cells first draft.here

namespace Draft.Tracked

variable {first : Nat} {inHand : List Nat} {draft next : Draft}

section

variable (htrk : draft.Tracked first inHand)

include htrk

theorem lay (hmarks : next.markers = draft.markers)
    (hnames : next.names = draft.names) (hroom : next.here ≤ next.names)
    (hagree : Agree first draft.here draft.cells next.cells) (hend : next.here = instructionEnd next.cells draft.here)
    (hlands : Jumps (next.cells draft.here) → Lands next.cells first next.here draft.here) :
    next.Tracked first inHand := by
  have hgrow := add_four_le_instructionEnd next.cells draft.here
  refine ⟨hroom, by rw [hnames]; exact htrk.names_lt, ?_, ?_⟩
  · rw [hmarks]
    rw [hend] at hlands ⊢
    exact htrk.coded.append hagree (fun _ hplace => hplace) (fun hjumps => .inr (hlands hjumps))
      fun _ hplace => .inl hplace
  · rw [hmarks]
    exact fun marker hmark =>
      (htrk.markers marker hmark).extend htrk.coded.isAligned hagree (by omega)

theorem layChunk {values : List Cell} (hchunk : Chunk values draft.markers draft next)
    (hend : next.here = instructionEnd next.cells draft.here)
    (hlands : Jumps (next.cells draft.here) → Lands next.cells first next.here draft.here) : next.Tracked first inHand :=
  htrk.lay hchunk.markers_eq hchunk.names_eq (hchunk.here_le htrk.here_le) (hchunk.agree first) hend hlands

theorem emit {value : Cell} (hplain : Plain value)
    (hemit : draft.emit value = some next) : next.Tracked first inHand := by
  have hchunk := Does.of_eq_some (does_emit value nofun) hemit
  have hcell : Plain (next.cells draft.here) := by rwa [hchunk.head]
  refine htrk.layChunk hchunk ?_ fun hjumps => absurd hjumps hcell.not_jumps
  rw [instructionEnd_of_plain hcell, hchunk.here_eq]
  rfl

theorem number {value : Number} (hword : draft.number value = some next) : next.Tracked first inHand := by
  have hchunk := Does.of_eq_some (does_literal value nofun) hword
  cases value with
  | single value =>
    have hcell : next.cells draft.here = Cell.ofNat (Prim.thread .lit).token := hchunk.head
    refine htrk.layChunk hchunk (hchunk.here_eq.trans (instructionEnd_of_lit hcell).symm) fun hjumps => absurd hjumps ?_
    rw [hcell]
    exact not_jumps_token (by simp [Instruction.takesOffset])
  | double value =>
    have hcell : next.cells draft.here = Cell.ofNat (Prim.thread .twoLit).token := hchunk.head
    refine htrk.layChunk hchunk (hchunk.here_eq.trans (instructionEnd_of_twoLit hcell).symm) fun hjumps => absurd hjumps ?_
    rw [hcell]
    exact not_jumps_token (by simp [Instruction.takesOffset])

end

variable {jump : ThreadWord} {place : Nat} {tag : Tag} {pastWhile : Bool} {tags : List Tag}

theorem emitBranch (htrk : draft.Tracked first inHand)
    (hjump : Instruction.takesOffset jump = true) (hemit : draft.emitBranch jump = some next) :
    next.Tracked first ((draft.here + 4) :: inHand) := by
  have hchunk := Does.of_eq_some (does_emitBranch jump nofun) hemit
  have hend : next.here = draft.here + 8 := hchunk.here_eq
  have hjumps : Jumps (next.cells draft.here) := by
    rw [hchunk.head]
    exact jumps_token hjump
  have hgrow := instructionEnd_of_jumps hjumps
  refine ⟨hchunk.here_le htrk.here_le, by rw [hchunk.names_eq]; exact htrk.names_lt, ?_, ?_⟩
  · rw [hchunk.markers_eq, hend, ← hgrow]
    refine htrk.coded.append (hchunk.agree first) (fun place hplace => ?_)
      (fun _ => .inl (.inr mem_cons_self)) fun place hplace => ?_
    · exact hplace.imp_right (mem_cons_of_mem _)
    · rcases hplace with hmark | hhand
      · exact .inl (.inl hmark)
      · rcases List.mem_cons.1 hhand with rfl | hhand
        · exact .inr ⟨rfl, hjumps⟩
        · exact .inl (.inr hhand)
  · rw [hchunk.markers_eq]
    exact fun marker hmark =>
      (htrk.markers marker hmark).extend htrk.coded.isAligned (hchunk.agree first) (by omega)

theorem emitBack (htrk : draft.Tracked first inHand) {target : Nat}
    (hjump : Instruction.takesOffset jump = true) (htarget : Boundary draft.cells first target)
    (hle : target ≤ draft.here) (hemit : draft.emitBack jump target = some next) : next.Tracked first inHand := by
  have hchunk := Does.of_eq_some (does_emit_emit _ (fun here => Cell.ofNat target - Cell.ofNat here) nofun) hemit
  have hend : next.here = draft.here + 8 := hchunk.here_eq
  have hoff : next.cells (draft.here + 4) = _ := hchunk.held 1 _ rfl
  have hjumps : Jumps (next.cells draft.here) := by
    rw [hchunk.head]
    exact jumps_token hjump
  have hnames := htrk.names_lt
  have hhere := htrk.here_le
  have hdist := Cell.toInt_ofNat_sub_ofNat (show target < 2 ^ 31 by omega)
    (show draft.here + 4 < 2 ^ 31 by omega)
  rw [← hoff] at hdist
  refine htrk.layChunk hchunk (hend.trans (instructionEnd_of_jumps hjumps).symm) fun _ => ?_
  refine ⟨fun hzero => ?_, target, htarget.congr htrk.coded.isAligned (hchunk.agree first) hle, by omega, by omega⟩
  rw [hzero] at hdist
  change (0 : Int) = _ at hdist
  omega

theorem push {held : List Nat} {marker : Marker} (htrk : draft.Tracked first held)
    (hsound : marker.Sound draft.cells first draft.here) (hmark : draft.mark marker = some next)
    (hsame : ∀ place, Awaits draft.markers place ∨ place ∈ held ↔
      Awaits (marker :: draft.markers) place ∨ place ∈ inHand) : next.Tracked first inHand := by
  rw [mark] at hmark
  split at hmark
  · cases hmark
  · cases hmark
    exact ⟨htrk.here_le, htrk.names_lt, htrk.coded.congr hsame, forall_mem_cons.2 ⟨hsound, htrk.markers⟩⟩

theorem markForward (htrk : draft.Tracked first (place :: inHand))
    (htag : tag.isForward = true) (hmark : draft.mark ⟨tag, place⟩ = some next) : next.Tracked first inHand := by
  refine htrk.push (Marker.sound_of_forward htag _ _ _) hmark fun other => ?_
  rw [awaits_cons, List.mem_cons]
  simp only [htag, true_and, eq_comm, or_left_comm, or_assoc]

theorem markTarget (htrk : draft.Tracked first inHand) (htag : tag.isForward = false)
    (hcolon : tag ≠ .colon) (hmark : draft.markTarget tag = some next) : next.Tracked first inHand := by
  refine htrk.push ⟨fun _ => ⟨htrk.coded.finish, Nat.le_refl _⟩, fun heq => absurd heq hcolon⟩ hmark fun other => ?_
  rw [awaits_cons]
  simp [htag]

theorem drop {above below : List Marker} {found : Marker} (htrk : draft.Tracked first inHand)
    (hmarks : draft.markers = above ++ found :: below) (htag : found.tag.isForward = false) :
    ({ draft with markers := above ++ below } : Draft).Tracked first inHand := by
  refine ⟨htrk.here_le, htrk.names_lt, htrk.coded.congr fun place => ?_, fun marker hmark => ?_⟩
  · rw [hmarks, awaits_insert]
    simp [htag]
  · refine htrk.markers marker ?_
    rw [hmarks]
    exact ((sublist_cons_self found below).append_left above).subset hmark

/-- The marker of a branch is taken, and the branch ends at `here`. -/
theorem patch {above below : List Marker} {found : Marker} (htrk : draft.Tracked first inHand)
    (hmarks : draft.markers = above ++ found :: below) (htag : found.tag.isForward = true) :
    (patch found.address { draft with markers := above ++ below }).Tracked first inHand := by
  have hhere : draft.here < 2 ^ 31 := Nat.lt_of_le_of_lt htrk.here_le
    (Nat.lt_trans htrk.names_lt (by decide))
  have hfound : Awaits draft.markers found.address := ⟨found, by rw [hmarks]; simp, htag, rfl⟩
  have hawaits := awaits_insert above below found
  rw [← hmarks] at hawaits
  refine ⟨htrk.here_le, htrk.names_lt, ?_, fun marker hmark => ?_⟩
  · refine htrk.coded.patch (.inl hfound) hhere (fun place hplace hother => ?_) fun place hplace => ?_
    · refine hplace.imp_left fun hmark => ?_
      rcases (hawaits place).1 hmark with ⟨_, hsame⟩ | hrest
      · exact absurd hsame.symm hother
      · exact hrest
    · exact hplace.imp_left fun hrest => (hawaits place).2 (.inr hrest)
  · have hmember : marker ∈ draft.markers := by
      rw [hmarks]
      exact ((sublist_cons_self found below).append_left above).subset hmark
    have hsound := htrk.markers marker hmember
    refine ⟨fun htarget => ?_, hsound.header⟩
    obtain ⟨hbdry, hle⟩ := hsound.target htarget
    obtain ⟨addr, hplace, hstart, _, hjumps⟩ := htrk.coded.placeholders found.address (.inl hfound)
    refine ⟨?_, hle⟩
    change Boundary (put draft.cells found.address _) first marker.address
    rw [hplace]
    exact (boundary_put_iff hstart hjumps _).2 hbdry

/-! #### Control words -/

section

variable (htrk : draft.Tracked first inHand)

include htrk

theorem branchForward (hjump : Instruction.takesOffset jump = true) (htag : tag.isForward = true)
    (hword : draft.branchForward jump tag = some next) : next.Tracked first inHand := by
  obtain ⟨branched, hbr, hmark⟩ := Option.bind_eq_some_iff.1 hword
  exact (htrk.emitBranch hjump hbr).markForward htag hmark

theorem resolveForward
    (htags : ∀ tag ∈ tags, tag.isForward = true) (hword : draft.resolveForward tags pastWhile = some next) :
    next.Tracked first inHand := by
  obtain ⟨⟨place, taken⟩, htake, rfl⟩ := Option.map_eq_some_iff.1 hword
  obtain ⟨above, found, below, hmarks, hfound, rfl, rfl⟩ := of_take_eq_some htake
  exact htrk.patch hmarks (htags found.tag hfound)

theorem resolveRun (htag : tag.isForward = true) : (draft.resolveRun tag).Tracked first inHand := by
  induction hmarks : draft.markers generalizing draft with
  | nil =>
    rw [resolveRun_of_done (by rw [hmarks]; nofun)]
    exact htrk
  | cons marker rest ih =>
    by_cases hsame : marker.tag = tag
    · subst hsame
      rw [resolveRun_of_tag hmarks]
      exact ih (@patch _ _ _ [] rest marker htrk hmarks htag) rfl
    · rw [resolveRun_of_done (by rw [hmarks]; simpa using hsame)]
      exact htrk

theorem branchBack (hjump : Instruction.takesOffset jump = true) (htags : ∀ tag ∈ tags, tag.isTarget = true)
    (hword : draft.branchBack jump tags = some next) : next.Tracked first inHand := by
  obtain ⟨⟨target, taken⟩, htake, hemit⟩ := Option.bind_eq_some_iff.1 hword
  obtain ⟨above, found, below, hmarks, hfound, rfl, rfl⟩ := of_take_eq_some htake
  have hfwd : found.tag.isForward = false := by
    have htarget := htags found.tag hfound
    cases htag : found.tag <;> simp_all [Tag.isForward, Tag.isTarget]
  have hmember : found ∈ draft.markers := by rw [hmarks]; simp
  obtain ⟨hbdry, hle⟩ := (htrk.markers found hmember).target (htags found.tag hfound)
  have htaken := htrk.drop hmarks hfwd
  exact htaken.emitBack hjump hbdry hle hemit

theorem closeMarker (htag : tag.isForward = false)
    (hword : draft.closeMarker tag = some next) : next.Tracked first inHand := by
  rw [Draft.closeMarker] at hword
  split at hword
  · cases hword
  · next marker rest hmarks =>
    split at hword
    · next hsame =>
      cases hword
      exact @drop _ _ _ [] rest marker htrk hmarks (hsame ▸ htag)
    · cases hword

end

theorem fileLeave (htrk : draft.Tracked first (place :: inHand))
    (hword : draft.fileLeave place = some next) : next.Tracked first inHand := by
  obtain ⟨⟨above, back, below⟩, hsplit, hfile⟩ := Option.bind_eq_some_iff.1 hword
  obtain ⟨hmarks, _, _⟩ := of_split_eq_some hsplit
  have hinsert : ∀ marker, above ++ back :: marker :: below = (above ++ [back]) ++ marker :: below := by
    intro marker
    rw [append_assoc]
    rfl
  have hwhole : draft.markers = (above ++ [back]) ++ below := by
    rw [hmarks, append_assoc]
    rfl
  simp only at hfile
  split at hfile
  · cases hfile
  · cases hfile
    refine ⟨htrk.here_le, htrk.names_lt, htrk.coded.congr fun other => ?_, ?_⟩
    · rw [hinsert, awaits_insert, hwhole, List.mem_cons]
      simp only [Tag.isForward, true_and, eq_comm, or_left_comm, or_assoc]
    · intro marker hmark
      rw [hinsert] at hmark
      rcases List.mem_append.1 hmark with habove | hbelow
      · exact htrk.markers marker (by rw [hwhole]; exact mem_append_left _ habove)
      · rcases List.mem_cons.1 hbelow with rfl | hbelow
        · exact Marker.sound_of_forward rfl _ _ _
        · exact htrk.markers marker (by rw [hwhole]; exact mem_append_right _ hbelow)

variable (htrk : draft.Tracked first inHand)

include htrk

theorem divide (htags : ∀ tag ∈ tags, tag.isForward = true) (htag : tag.isForward = true)
    (hword : draft.divide tags pastWhile tag = some next) : next.Tracked first inHand := by
  obtain ⟨branched, hbr, hword⟩ := Option.bind_eq_some_iff.1 hword
  obtain ⟨resolved, hresolve, hmark⟩ := Option.bind_eq_some_iff.1 hword
  exact ((htrk.emitBranch rfl hbr).resolveForward htags hresolve).markForward htag hmark

theorem openLoop {enter : ThreadWord}
    (henter : Instruction.takesOffset enter = true) (hword : draft.openLoop enter = some next) :
    next.Tracked first inHand := by
  obtain ⟨marked, hmark, hword⟩ := Option.bind_eq_some_iff.1 hword
  obtain ⟨branched, hbr, hback⟩ := Option.bind_eq_some_iff.1 hword
  exact ((htrk.markTarget rfl (by decide) hmark).branchForward henter rfl hbr).markTarget rfl (by decide) hback

theorem closeLoop {step : ThreadWord}
    (hstep : Instruction.takesOffset step = true) (hword : draft.closeLoop step = some next) :
    next.Tracked first inHand := by
  obtain ⟨branched, hbr, hword⟩ := Option.bind_eq_some_iff.1 hword
  obtain ⟨resolved, hresolve, hclose⟩ := Option.bind_eq_some_iff.1 hword
  have hbranched := htrk.branchBack hstep (by decide) hbr
  exact ((hbranched.resolveRun rfl).resolveForward (by decide) hresolve).closeMarker rfl hclose

theorem leaveLoop (hword : draft.leaveLoop = some next) : next.Tracked first inHand := by
  obtain ⟨called, hcall, hword⟩ := Option.bind_eq_some_iff.1 hword
  obtain ⟨branched, hbr, hfile⟩ := Option.bind_eq_some_iff.1 hword
  have hcalled := htrk.emit (plain_token (by simp [Instruction.takesOffset])) hcall
  exact (hcalled.emitBranch rfl hbr).fileLeave hfile

theorem control {word : ControlWord} (hword : word.draft draft = some next) : next.Tracked first inHand := by
  cases word with
  | if_ | while_ | of_ => exact htrk.branchForward rfl rfl hword
  | else_ => exact htrk.divide (by decide) rfl hword
  | endOf => exact htrk.divide (by decide) rfl hword
  | then_ => exact htrk.resolveForward (by decide) hword
  | begin | case_ => exact htrk.markTarget rfl (by decide) hword
  | again | until_ => exact htrk.branchBack rfl (by decide) hword
  | repeat_ =>
    obtain ⟨branched, hbr, hresolve⟩ := Option.bind_eq_some_iff.1 hword
    exact (htrk.branchBack rfl (by decide) hbr).resolveForward (by decide) hresolve
  | do_ | questionDo => exact htrk.openLoop rfl hword
  | loop | plusLoop => exact htrk.closeLoop rfl hword
  | leave => exact htrk.leaveLoop hword
  | endCase =>
    obtain ⟨called, hcall, hclose⟩ := Option.bind_eq_some_iff.1 hword
    exact ((htrk.emit (plain_token (by simp)) hcall).resolveRun rfl).closeMarker rfl hclose

end Draft.Tracked

end ThreadedForth
