
import ThreadedForth.Proofs.Compiler.Definition

/-!
# What a definition is made of

A definition is laid down fragment by fragment: a literal, a text, a branch, a call. `Laid` says that cells hold
a list of fragments, one behind the other. The offset of a branch is no part of its fragment, for it may come
later. So ending a branch leaves the fragments as they are, and each word that compiles adds its own fragments at
the end.
-/

namespace ThreadedForth

open Utf8 Draft Option

/-! ### Bytes in cells -/

theorem Cell.byte_ofBytes (b0 b1 b2 b3 : UInt8) :
    byte (ofBytes b0 b1 b2 b3) 0 = b0 ∧ byte (ofBytes b0 b1 b2 b3) 1 = b1 ∧
      byte (ofBytes b0 b1 b2 b3) 2 = b2 ∧ byte (ofBytes b0 b1 b2 b3) 3 = b3 := by
  refine ⟨?_, ?_, ?_, ?_⟩
  all_goals
    apply UInt8.toBitVec_inj.1
    apply BitVec.eq_of_getLsbD_eq
    intro i hi
    simp only [ofBytes, byte, UInt32.toBitVec_or, UInt8.toBitVec_toUInt32,
      UInt32.toBitVec_shiftLeft, UInt32.toBitVec_toUInt8, UInt32.toBitVec_shiftRight,
      BitVec.getLsbD_or, BitVec.getLsbD_setWidth, UInt32.mul_zero,
      UInt32.toBitVec_ofNat, BitVec.ofNat_eq_ofNat, BitVec.zero_umod, BitVec.ushiftRight_eq',
      BitVec.toNat_ofNat, Nat.reducePow, Nat.zero_mod, BitVec.ushiftRight_zero, UInt32.mul_one,
      BitVec.reduceMod, Nat.reduceMod, BitVec.shiftLeft_eq', BitVec.getLsbD_shiftLeft,
      BitVec.getLsbD_ushiftRight, UInt32.reduceMul, UInt32.toUInt32_toInt32]
    grind

/-- The byte at an address, taken from the cell it lies in. -/
def byteIn (cells : Nat → Cell) (address : Nat) : UInt8 :=
  Cell.byte (cells (address - address % 4)) (UInt32.ofNat (address % 4))

theorem byteIn_cellAt (memory : Memory) (addr : Nat) : byteIn memory.cellAt addr = memory.byteAt addr := by
  obtain ⟨quotient, rest, hrest, rfl⟩ : ∃ quotient rest, rest < 4 ∧ addr = 4 * quotient + rest :=
    ⟨addr / 4, addr % 4, Nat.mod_lt _ (by decide), (Nat.div_add_mod _ _).symm⟩
  have hmod : (4 * quotient + rest) % 4 = rest := by omega
  obtain ⟨h0, h1, h2, h3⟩ := Cell.byte_ofBytes (memory.byteAt (4 * quotient)) (memory.byteAt (4 * quotient + 1))
    (memory.byteAt (4 * quotient + 2)) (memory.byteAt (4 * quotient + 3))
  rw [byteIn, hmod, Nat.add_sub_cancel, Memory.cellAt]
  obtain rfl | rfl | rfl | rfl : rest = 0 ∨ rest = 1 ∨ rest = 2 ∨ rest = 3 := by omega
  · exact h0
  · exact h1
  · exact h2
  · exact h3

theorem Memory.byteAt_of_bytesAt {memory : Memory} {addr length index : Nat} {byte : UInt8}
    (hbyte : (memory.bytesAt addr length)[index]? = some byte) : memory.byteAt (addr + index) = byte := by
  obtain ⟨hindex, rfl⟩ := List.getElem?_eq_some_iff.1 hbyte
  simp only [bytesAt, Array.length_toList, Array.size_extract] at hindex
  simp [bytesAt, byteAt, Array.getD, show addr + index < memory.bytes.size by omega]

/-- The cells hold code that pushes a text: a token, a count, and the bytes. -/
def TextHeld (cells : Nat → Cell) (address : Nat) (bytes : List UInt8) : Prop :=
  cells address = Cell.ofNat (Prim.thread .textLit).token ∧ cells (address + 4) = Cell.ofNat bytes.length ∧
    bytes.length < 2 ^ 31 ∧ ∀ (index : Nat) (byte : UInt8), bytes[index]? = some byte →
      byteIn cells (address + 8 + index) = byte

section

variable {addr : Nat} {bytes : List UInt8} {memory : Memory}

theorem TextHeld.congr {cells other : Nat → Cell} (hheld : TextHeld cells addr bytes) (halign : addr % 4 = 0)
    (hsame : ∀ inner, addr ≤ inner → inner + 4 ≤ aligned (addr + 8 + bytes.length) → inner % 4 = 0 →
      other inner = cells inner) : TextHeld other addr bytes := by
  obtain ⟨hcall, hcount, hlen, hbytes⟩ := hheld
  have hend := le_aligned (addr + 8 + bytes.length)
  have hmod := aligned_mod (addr + 8 + bytes.length)
  refine ⟨(hsame _ (by omega) (by omega) (by omega)).trans hcall,
    (hsame _ (by omega) (by omega) (by omega)).trans hcount, hlen, fun index byte hbyte => ?_⟩
  have hindex : index < bytes.length := (List.getElem?_eq_some_iff.1 hbyte).1
  rw [← hbytes index byte hbyte, byteIn, byteIn, hsame _ (by omega) (by omega) (by omega)]

theorem TextHeld.bytesAt_eq (hheld : TextHeld memory.cellAt addr bytes)
    (hrange : addr + 8 + bytes.length ≤ memory.size) : memory.bytesAt (addr + 8) bytes.length = bytes := by
  rw [Memory.bytesAt_eq_map _ _ _ hrange]
  refine List.ext_getElem (by simp) fun index _ hindex => ?_
  rw [List.getElem_map, List.getElem_range, ← byteIn_cellAt]
  exact hheld.2.2.2 index _ (List.getElem?_eq_getElem hindex)

theorem Draft.textHeld_withText {draft : Draft} (hmod : draft.here % 4 = 0) (hlen : bytes.length < 2 ^ 31)
    (hbytes : memory.bytesAt (draft.here + 8) bytes.length = bytes) :
    TextHeld (draft.withText memory bytes.length).cells draft.here bytes := by
  obtain ⟨_, hcall, hcount, habove⟩ := draft.withText_cells memory bytes.length
  refine ⟨hcall, hcount, hlen, fun index byte hbyte => ?_⟩
  rw [← hbytes] at hbyte
  rw [← Memory.byteAt_of_bytesAt hbyte, ← byteIn_cellAt, byteIn, byteIn, habove _ (by omega)]

end

/-! ### Fragments -/

/-- The cell calls a word other than `EXIT` that takes nothing from the thread. -/
def Ordinary (token : Cell) : Prop := Plain token ∧ Prim.ofToken? token ≠ some (.thread .exit)

theorem ordinary_token {prim : Prim} (hprim : ∀ word, prim = .thread word →
    word ≠ .exit ∧ word ≠ .lit ∧ word ≠ .twoLit ∧ word ≠ .textLit ∧ Instruction.takesOffset word = false) :
    Ordinary (Cell.ofNat prim.token) := by
  refine ⟨plain_token fun word hword => (hprim word hword).2, ?_⟩
  rw [Prim.ofToken?_token]
  exact fun hexit => (hprim .exit (Option.some.inj hexit)).1 rfl

/-- What is laid down at once. -/
inductive Fragment where
  | cell (value : Cell)
  | double (value : DoubleCell)
  | text (content : String)
  /-- A word with an offset. -/
  | branch (jump : ThreadWord)
  | exit
  /-- A call of a word, known by a name. -/
  | word (token : Cell) (name : String)

namespace Fragment

/-- The literal of a number. -/
def ofNumber : Number → Fragment
  | .single value => cell value
  | .double value => double value

/-- The address behind a fragment that starts at an address. -/
def next (address : Nat) : Fragment → Nat
  | cell _ => address + 8
  | double _ => address + 12
  | text content => aligned (address + 8 + (encode content).length)
  | branch _ => address + 8
  | exit => address + 4
  | word _ _ => address + 4

/-- The cells hold the fragment at an address. The offset of a branch is left open. -/
def Held (cells : Nat → Cell) (address : Nat) : Fragment → Prop
  | cell value => cells address = Cell.ofNat (Prim.thread .lit).token ∧ cells (address + 4) = value
  | double value => cells address = Cell.ofNat (Prim.thread .twoLit).token ∧
      cells (address + 4) = DoubleCell.low value ∧ cells (address + 8) = DoubleCell.high value
  | text content => cells address = Cell.ofNat (Prim.thread .textLit).token ∧
      cells (address + 4) = Cell.ofNat (encode content).length ∧ (encode content).length < 2 ^ 31 ∧
      ∀ (index : Nat) (byte : UInt8), (encode content)[index]? = some byte →
        byteIn cells (address + 8 + index) = byte
  | branch jump => cells address = Cell.ofNat (Prim.thread jump).token ∧ Instruction.takesOffset jump = true
  | exit => cells address = Cell.ofNat (Prim.thread .exit).token
  | word token _ => cells address = token ∧ Ordinary token

section

variable {cells other : Nat → Cell} {addr : Nat} {fragment : Fragment}

theorem instructionEnd_eq (hheld : fragment.Held cells addr) :
    instructionEnd cells addr = fragment.next addr := by
  cases fragment with
  | cell value => exact instructionEnd_of_lit hheld.1
  | double value => exact instructionEnd_of_twoLit hheld.1
  | text content =>
    obtain ⟨hcall, hcount, hlen, _⟩ := hheld
    rw [instructionEnd_of_textLit hcall, hcount, Cell.toNatClampNeg_ofNat hlen]
    rfl
  | branch jump =>
    obtain ⟨hcall, htakes⟩ := hheld
    exact instructionEnd_of_jumps (by rw [hcall]; exact jumps_token htakes)
  | exit =>
    refine instructionEnd_of_plain ?_
    rw [hheld]
    exact plain_token (by simp [Instruction.takesOffset])
  | word token name =>
    obtain ⟨hcall, hplain, _⟩ := hheld
    exact instructionEnd_of_plain (by rw [hcall]; exact hplain)

theorem Held.not_jumps (hheld : fragment.Held cells addr) (hother : ∀ jump, fragment ≠ .branch jump) :
    ¬ Jumps (cells addr) := by
  cases fragment with
  | branch jump => exact (hother jump rfl).elim
  | word token name => exact hheld.1 ▸ hheld.2.1.not_jumps
  | exit =>
    rw [show cells addr = _ from hheld]
    exact not_jumps_token (by simp [Instruction.takesOffset])
  | cell | double | text =>
    rw [hheld.1]
    exact not_jumps_token (by simp [Instruction.takesOffset])

/-- A fragment is what its cells are, but for the offset of a branch. -/
theorem Held.congr (hheld : fragment.Held cells addr) (halign : addr % 4 = 0)
    (hsame : ∀ inner, addr ≤ inner → inner + 4 ≤ fragment.next addr → inner % 4 = 0 →
      (∀ jump, fragment = .branch jump → inner = addr) → other inner = cells inner) :
    fragment.Held other addr := by
  cases fragment with
  | cell value =>
    obtain ⟨hcall, hvalue⟩ := hheld
    change ∀ inner, _ → inner + 4 ≤ addr + 8 → _ at hsame
    exact ⟨(hsame _ (by omega) (by omega) (by omega) nofun).trans hcall,
      (hsame _ (by omega) (by omega) (by omega) nofun).trans hvalue⟩
  | double value =>
    obtain ⟨hcall, hlow, hhigh⟩ := hheld
    change ∀ inner, _ → inner + 4 ≤ addr + 12 → _ at hsame
    exact ⟨(hsame _ (by omega) (by omega) (by omega) nofun).trans hcall,
      (hsame _ (by omega) (by omega) (by omega) nofun).trans hlow,
      (hsame _ (by omega) (by omega) (by omega) nofun).trans hhigh⟩
  | text content => exact TextHeld.congr hheld halign fun inner hlow hhigh hmod => hsame inner hlow hhigh hmod nofun
  | branch jump =>
    obtain ⟨hcall, htakes⟩ := hheld
    change ∀ inner, _ → inner + 4 ≤ addr + 8 → _ at hsame
    exact ⟨(hsame _ (by omega) (by omega) (by omega) fun _ _ => rfl).trans hcall, htakes⟩
  | exit =>
    change ∀ inner, _ → inner + 4 ≤ addr + 4 → _ at hsame
    exact (hsame _ (by omega) (by omega) (by omega) nofun).trans hheld
  | word token name =>
    obtain ⟨hcall, hordinary⟩ := hheld
    change ∀ inner, _ → inner + 4 ≤ addr + 4 → _ at hsame
    exact ⟨(hsame _ (by omega) (by omega) (by omega) nofun).trans hcall, hordinary⟩

end

theorem add_four_le_next (addr : Nat) (fragment : Fragment) : addr + 4 ≤ fragment.next addr := by
  cases fragment with
  | text content => exact Nat.le_trans (by omega) (le_aligned _)
  | _ => simp only [next]; omega

end Fragment

/-- The address behind fragments that start at an address. -/
def listEnd (address : Nat) : List Fragment → Nat
  | [] => address
  | fragment :: rest => listEnd (fragment.next address) rest

/-- The cells hold the fragments from an address on. -/
def Laid (cells : Nat → Cell) (address : Nat) : List Fragment → Prop
  | [] => True
  | fragment :: rest => fragment.Held cells address ∧ Laid cells (fragment.next address) rest

theorem listEnd_append (addr : Nat) (fragments more : List Fragment) :
    listEnd addr (fragments ++ more) = listEnd (listEnd addr fragments) more := by
  induction fragments generalizing addr with
  | nil => rfl
  | cons fragment rest ih => exact ih _

theorem le_listEnd (addr : Nat) (fragments : List Fragment) :
    addr + 4 * fragments.length ≤ listEnd addr fragments := by
  induction fragments generalizing addr with
  | nil => exact Nat.le_refl _
  | cons fragment rest ih =>
    have hrest := ih (fragment.next addr)
    have hnext := fragment.add_four_le_next addr
    rw [List.length_cons, listEnd]
    omega

namespace Laid

variable {cells other : Nat → Cell} {first addr : Nat} {fragments more : List Fragment}

theorem append_iff :
    Laid cells addr (fragments ++ more) ↔
      Laid cells addr fragments ∧ Laid cells (listEnd addr fragments) more := by
  induction fragments generalizing addr with
  | nil => exact ⟨fun hmore => ⟨trivial, hmore⟩, And.right⟩
  | cons fragment rest ih =>
    rw [List.cons_append, Laid, Laid, ih, and_assoc]
    rfl

variable (hlaid : Laid cells addr fragments)

include hlaid

theorem congr (halign : addr % 4 = 0)
    (hagree : Agree addr (listEnd addr fragments) cells other) : Laid other addr fragments := by
  induction fragments generalizing addr with
  | nil => trivial
  | cons fragment rest ih =>
    obtain ⟨hheld, hrest⟩ := hlaid
    have hnext := fragment.add_four_le_next addr
    have hend := le_listEnd (fragment.next addr) rest
    have hmod : fragment.next addr % 4 = 0 := by
      rw [← fragment.instructionEnd_eq hheld]
      exact instructionEnd_mod halign
    rw [listEnd] at hagree
    refine ⟨hheld.congr halign fun inner hlow hhigh hinner _ => hagree inner hlow (by omega) hinner,
      ih hrest hmod fun inner hlow hhigh hinner => hagree inner (by omega) hhigh hinner⟩

theorem boundary (hstart : Boundary cells first addr) : Boundary cells first (listEnd addr fragments) := by
  induction fragments generalizing addr with
  | nil => exact hstart
  | cons fragment rest ih =>
    obtain ⟨hheld, hrest⟩ := hlaid
    refine ih hrest ?_
    rw [← fragment.instructionEnd_eq hheld]
    exact hstart.next

/-- A branch that is given its offset leaves the fragments as they are. -/
theorem put {start : Nat} (halign : first % 4 = 0)
    (haddr : Boundary cells first addr) (hstart : Boundary cells first start) (hjumps : Jumps (cells start))
    (offset : Cell) : Laid (put cells (start + 4) offset) addr fragments := by
  induction fragments generalizing addr with
  | nil => trivial
  | cons fragment rest ih =>
    obtain ⟨hheld, hrest⟩ := hlaid
    have hend := fragment.instructionEnd_eq hheld
    refine ⟨hheld.congr (haddr.mod_eq halign) fun inner hlow hhigh _ hbr => put_of_ne _ _ ?_,
      ih hrest (hend ▸ haddr.next)⟩
    rintro rfl
    have hbranchEnd := instructionEnd_of_jumps hjumps
    rcases Nat.lt_trichotomy addr start with hlt | rfl | hgt
    · have hle := haddr.end_le hstart hlt
      omega
    · -- the branch itself, which has no other cell than its first
      by_cases hjump : ∃ jump, fragment = .branch jump
      · obtain ⟨jump, hjump⟩ := hjump
        have hsame := hbr jump hjump
        omega
      · exact hheld.not_jumps (fun jump hsame => hjump ⟨jump, hsame⟩) hjumps
    · have hle := hstart.end_le haddr hgt
      omega

end Laid

/-! ### Drafts -/

/-- The fragments that a control word lays down. -/
def ControlWord.fragments : ControlWord → List Fragment
  | if_ | until_ | while_ => [.branch .zeroBranch]
  | else_ | again | repeat_ | endOf => [.branch .branch]
  | then_ | begin | case_ => []
  | do_ => [.branch .enterDo]
  | questionDo => [.branch .enterQuestionDo]
  | loop => [.branch .stepLoop]
  | plusLoop => [.branch .stepPlusLoop]
  | leave => [.word (Cell.ofNat (Prim.thread .unloop).token) (Prim.thread .unloop).name, .branch .branch]
  | of_ => [.branch .testOf]
  | endCase => [.word (Cell.ofNat (Prim.stack .drop).token) (Prim.stack .drop).name]

/-- The code of the draft is the fragments, and no branch of it is lost. -/
structure Draft.Listed (first : Nat) (inHand : List Nat) (fragments : List Fragment) (draft : Draft) : Prop where
  tracked : draft.Tracked first inHand
  laid : Laid draft.cells first fragments
  here_eq : listEnd first fragments = draft.here

namespace Draft.Listed

variable {first : Nat} {inHand : List Nat} {fragments more : List Fragment} {draft next : Draft}

variable {held : List Nat} {jump : ThreadWord} {tag : Tag} {pastWhile : Bool} {tags : List Tag}

section

variable (hlst : draft.Listed first inHand fragments)

include hlst

theorem extend (htrk : next.Tracked first held)
    (hagree : Agree first draft.here draft.cells next.cells) (hmore : Laid next.cells draft.here more)
    (hend : listEnd draft.here more = next.here) : next.Listed first held (fragments ++ more) := by
  obtain ⟨hold, hlaid, hhere⟩ := hlst
  refine ⟨htrk, Laid.append_iff.2 ⟨hlaid.congr hold.coded.isAligned (hhere ▸ hagree), hhere ▸ hmore⟩, ?_⟩
  rw [listEnd_append, hhere, hend]

theorem remark (htrk : next.Tracked first held)
    (hcells : next.cells = draft.cells) (hhere : next.here = draft.here) : next.Listed first held fragments :=
  ⟨htrk, hcells ▸ hlst.laid, hlst.here_eq.trans hhere.symm⟩

theorem emit {value : Cell} {fragment : Fragment} (hplain : Plain value)
    (hfragment : ∀ cells : Nat → Cell, cells draft.here = value → fragment.Held cells draft.here)
    (hnext : fragment.next draft.here = draft.here + 4) (hemit : draft.emit value = some next) :
    next.Listed first inHand (fragments ++ [fragment]) := by
  have hchunk := Does.of_eq_some (does_emit value nofun) hemit
  exact hlst.extend (hlst.tracked.emit hplain hemit) (hchunk.agree first) ⟨hfragment _ hchunk.head, trivial⟩
    (hnext.trans hchunk.here_eq.symm)

end

theorem word (hlst : draft.Listed first inHand fragments) {token : Cell} (hordinary : Ordinary token) (name : String)
    (hemit : draft.emit token = some next) : next.Listed first inHand (fragments ++ [.word token name]) :=
  hlst.emit hordinary.1 (fun _ hcell => ⟨hcell, hordinary⟩) rfl hemit

theorem exit (hlst : draft.Listed first inHand fragments) (hemit : draft.compile (.thread .exit) = some next) :
    next.Listed first inHand (fragments ++ [.exit]) :=
  hlst.emit (plain_token (by simp [Instruction.takesOffset])) (fun _ hcell => hcell) rfl hemit

theorem number (hlst : draft.Listed first inHand fragments) {value : Number} (hword : draft.number value = some next) :
    next.Listed first inHand (fragments ++ [.ofNumber value]) := by
  have hchunk := Does.of_eq_some (does_literal value nofun) hword
  refine hlst.extend (hlst.tracked.number hword) (hchunk.agree first) ?_ ?_
  · cases value with
    | single value => exact ⟨⟨hchunk.head, hchunk.held 1 _ rfl⟩, trivial⟩
    | double value => exact ⟨⟨hchunk.head, hchunk.held 1 _ rfl, hchunk.held 2 _ rfl⟩, trivial⟩
  · cases value <;> exact hchunk.here_eq.symm

section

variable (hlst : draft.Listed first inHand fragments)

include hlst

theorem layBranch {markers : List Marker} {offset : Cell} (hjump : Instruction.takesOffset jump = true)
    (htrk : next.Tracked first held) (hchunk : Chunk [Cell.ofNat (Prim.thread jump).token, offset] markers draft next) :
    next.Listed first held (fragments ++ [.branch jump]) :=
  hlst.extend htrk (hchunk.agree first) ⟨⟨hchunk.head, hjump⟩, trivial⟩ hchunk.here_eq.symm

theorem emitBranch (hjump : Instruction.takesOffset jump = true) (hemit : draft.emitBranch jump = some next) :
    next.Listed first ((draft.here + 4) :: inHand) (fragments ++ [.branch jump]) :=
  hlst.layBranch hjump (hlst.tracked.emitBranch hjump hemit) (Does.of_eq_some (does_emitBranch jump nofun) hemit)

theorem mark {marker : Marker}
    (htrk : next.Tracked first held) (hmark : draft.mark marker = some next) : next.Listed first held fragments := by
  rw [Draft.mark] at hmark
  split at hmark
  · cases hmark
  · cases hmark
    exact hlst.remark htrk rfl rfl

end

theorem patch {above below : List Marker} {found : Marker} (hlst : draft.Listed first inHand fragments)
    (hmarks : draft.markers = above ++ found :: below) (htag : found.tag.isForward = true) :
    (patch found.address { draft with markers := above ++ below }).Listed first inHand fragments := by
  obtain ⟨htrk, hlaid, hhere⟩ := hlst
  have hfound : Awaits draft.markers found.address := ⟨found, by rw [hmarks]; simp, htag, rfl⟩
  obtain ⟨start, hplace, hstart, _, hjumps⟩ := htrk.coded.placeholders found.address (.inl hfound)
  refine ⟨htrk.patch hmarks htag, ?_, hhere⟩
  change Laid (put draft.cells found.address _) first fragments
  rw [hplace]
  exact hlaid.put htrk.coded.isAligned (Boundary.start _ _) hstart hjumps _

section

variable (hlst : draft.Listed first inHand fragments)

include hlst

theorem branchForward (hjump : Instruction.takesOffset jump = true) (htag : tag.isForward = true)
    (hword : draft.branchForward jump tag = some next) : next.Listed first inHand (fragments ++ [.branch jump]) := by
  have htrk := hlst.tracked.branchForward hjump htag hword
  obtain ⟨branched, hbr, hmark⟩ := bind_eq_some_iff.1 hword
  exact (hlst.emitBranch hjump hbr).mark htrk hmark

theorem markTarget (htag : tag.isForward = false)
    (hcolon : tag ≠ .colon) (hmark : draft.markTarget tag = some next) : next.Listed first inHand fragments :=
  hlst.mark (hlst.tracked.markTarget htag hcolon hmark) hmark

theorem resolveForward
    (htags : ∀ tag ∈ tags, tag.isForward = true) (hword : draft.resolveForward tags pastWhile = some next) :
    next.Listed first inHand fragments := by
  obtain ⟨⟨place, taken⟩, htake, rfl⟩ := map_eq_some_iff.1 hword
  obtain ⟨above, found, below, hmarks, hfound, rfl, rfl⟩ := of_take_eq_some htake
  exact hlst.patch hmarks (htags found.tag hfound)

theorem resolveRun (htag : tag.isForward = true) : (draft.resolveRun tag).Listed first inHand fragments := by
  induction hmarks : draft.markers generalizing draft with
  | nil =>
    rw [resolveRun_of_done (by rw [hmarks]; nofun)]
    exact hlst
  | cons marker rest ih =>
    by_cases hsame : marker.tag = tag
    · subst hsame
      rw [resolveRun_of_tag hmarks]
      exact ih (@patch _ _ _ _ [] rest marker hlst hmarks htag) rfl
    · rw [resolveRun_of_done (by rw [hmarks]; simpa using hsame)]
      exact hlst

theorem branchBack (hjump : Instruction.takesOffset jump = true) (htags : ∀ tag ∈ tags, tag.isTarget = true)
    (hword : draft.branchBack jump tags = some next) : next.Listed first inHand (fragments ++ [.branch jump]) := by
  have htrk := hlst.tracked.branchBack hjump htags hword
  obtain ⟨⟨target, taken⟩, htake, hemit⟩ := bind_eq_some_iff.1 hword
  obtain ⟨above, found, below, _, _, _, rfl⟩ := of_take_eq_some htake
  have hchunk := Does.of_eq_some (does_emit_emit _ (fun here => Cell.ofNat target - Cell.ofNat here) nofun) hemit
  exact hlst.layBranch hjump htrk ((draft.chunk_markers _).append hchunk)

theorem closeMarker (htag : tag.isForward = false)
    (hword : draft.closeMarker tag = some next) : next.Listed first inHand fragments := by
  have htrk := hlst.tracked.closeMarker htag hword
  rw [Draft.closeMarker] at hword
  split at hword
  · cases hword
  · split at hword
    · cases hword
      exact hlst.remark htrk rfl rfl
    · cases hword

end

theorem fileLeave {place : Nat} (hlst : draft.Listed first (place :: inHand) fragments)
    (hword : draft.fileLeave place = some next) : next.Listed first inHand fragments := by
  have htrk := hlst.tracked.fileLeave hword
  obtain ⟨⟨above, back, below⟩, _, hfile⟩ := bind_eq_some_iff.1 hword
  simp only at hfile
  split at hfile
  · cases hfile
  · cases hfile
    exact hlst.remark htrk rfl rfl

variable (hlst : draft.Listed first inHand fragments)

include hlst

theorem divide (htags : ∀ tag ∈ tags, tag.isForward = true) (htag : tag.isForward = true)
    (hword : draft.divide tags pastWhile tag = some next) :
    next.Listed first inHand (fragments ++ [.branch .branch]) := by
  have htrk := hlst.tracked.divide htags htag hword
  obtain ⟨branched, hbr, hword⟩ := bind_eq_some_iff.1 hword
  obtain ⟨resolved, hresolve, hmark⟩ := bind_eq_some_iff.1 hword
  exact ((hlst.emitBranch rfl hbr).resolveForward htags hresolve).mark htrk hmark

theorem openLoop {enter : ThreadWord}
    (henter : Instruction.takesOffset enter = true) (hword : draft.openLoop enter = some next) :
    next.Listed first inHand (fragments ++ [.branch enter]) := by
  obtain ⟨marked, hmark, hword⟩ := bind_eq_some_iff.1 hword
  obtain ⟨branched, hbr, hback⟩ := bind_eq_some_iff.1 hword
  exact ((hlst.markTarget rfl (by decide) hmark).branchForward henter rfl hbr).markTarget rfl (by decide) hback

theorem closeLoop {step : ThreadWord}
    (hstep : Instruction.takesOffset step = true) (hword : draft.closeLoop step = some next) :
    next.Listed first inHand (fragments ++ [.branch step]) := by
  obtain ⟨branched, hbr, hword⟩ := bind_eq_some_iff.1 hword
  obtain ⟨resolved, hresolve, hclose⟩ := bind_eq_some_iff.1 hword
  have hbranched := hlst.branchBack hstep (by decide) hbr
  exact ((hbranched.resolveRun rfl).resolveForward (by decide) hresolve).closeMarker rfl hclose

theorem leaveLoop (hword : draft.leaveLoop = some next) :
    next.Listed first inHand (fragments ++ ControlWord.leave.fragments) := by
  obtain ⟨called, hcall, hword⟩ := bind_eq_some_iff.1 hword
  obtain ⟨branched, hbr, hfile⟩ := bind_eq_some_iff.1 hword
  have hcalled := hlst.word (ordinary_token (by simp [Instruction.takesOffset])) (Prim.thread .unloop).name hcall
  have hleft := (hcalled.emitBranch rfl hbr).fileLeave hfile
  rwa [List.append_assoc] at hleft

theorem text {memory : Memory} {content : String} (hlen : (encode content).length < 2 ^ 31)
    (hroom : aligned (draft.here + 8 + (encode content).length) ≤ draft.names)
    (hbytes : memory.bytesAt (draft.here + 8) (encode content).length = encode content) :
    (draft.withText memory (encode content).length).Listed first inHand (fragments ++ [.text content]) := by
  have hmod : draft.here % 4 = 0 := hlst.tracked.coded.finish.mod_eq hlst.tracked.coded.isAligned
  have hbelow := (draft.withText_cells memory (encode content).length).1
  exact hlst.extend (hlst.tracked.text hlen hroom) (fun inner _ hinner _ => hbelow inner hinner)
    ⟨textHeld_withText hmod hlen hbytes, trivial⟩ rfl

theorem control {word : ControlWord} (hword : word.draft draft = some next) :
    next.Listed first inHand (fragments ++ word.fragments) := by
  cases word with
  | if_ | while_ | of_ => exact hlst.branchForward rfl rfl hword
  | else_ | endOf => exact hlst.divide (by decide) rfl hword
  | then_ =>
    have hresolved := hlst.resolveForward (by decide) hword
    rwa [← List.append_nil fragments] at hresolved
  | begin | case_ =>
    have hmarked := hlst.markTarget rfl (by decide) hword
    rwa [← List.append_nil fragments] at hmarked
  | again | until_ => exact hlst.branchBack rfl (by decide) hword
  | repeat_ =>
    obtain ⟨branched, hbr, hresolve⟩ := bind_eq_some_iff.1 hword
    exact (hlst.branchBack rfl (by decide) hbr).resolveForward (by decide) hresolve
  | do_ | questionDo => exact hlst.openLoop rfl hword
  | loop | plusLoop => exact hlst.closeLoop rfl hword
  | leave => exact hlst.leaveLoop hword
  | endCase =>
    obtain ⟨called, hcall, hclose⟩ := bind_eq_some_iff.1 hword
    exact ((hlst.word (ordinary_token (by simp)) _ hcall).resolveRun rfl).closeMarker rfl hclose

end Draft.Listed

/-! ### Code under way -/

open WordM

/-- The machine holds a definition whose code starts at `first` and is made of the fragments. -/
def Drafted (first : Nat) (fragments : List Fragment) (m : Machine) : Prop :=
  ∃ draft, Site first draft m ∧ draft.Listed first [] fragments

/-- Whatever happens while no word compiles: the definition and the markers are left alone. -/
structure Interlude (first : Nat) (before after : Machine) : Prop where
  bounded : after.Bounded
  dictionary : after.dictionary = before.dictionary
  control : after.control = before.control
  memory : Memory.SameOutside (Elsewhere first) before.memory after.memory

namespace Drafted

variable {first : Nat} {fragments more : List Fragment} {before after : Machine}

variable (hdrafted : Drafted first fragments before)

include hdrafted

theorem of_performs {action : WordM Unit} {step : Draft → Option Draft}
    (hperforms : ∀ draft, Performs first action draft ((step draft).map fun next => ((), next)))
    (hstep : ∀ draft next, draft.Listed first [] fragments → step draft = some next →
      next.Listed first [] (fragments ++ more))
    (hact : action before = .ok () after) : Drafted first (fragments ++ more) after := by
  obtain ⟨draft, hsite, hlst⟩ := hdrafted
  obtain ⟨next, hnext, hafter, _⟩ := (hperforms draft).of_ok hsite hact
  exact ⟨next, hafter, hstep draft next hlst hnext⟩

theorem interlude (hinterlude : Interlude first before after) : Drafted first fragments after := by
  obtain ⟨draft, hsite, hlst⟩ := hdrafted
  exact ⟨draft, hsite.transfer hinterlude.bounded hinterlude.dictionary hinterlude.control hinterlude.memory, hlst⟩

theorem compileText {text : Source} {content : String}
    (hcontent : before.memory.bytesAt text.address text.length = encode content)
    (htext : InputWord.compileText text before = .ok () after) : Drafted first (fragments ++ [.text content]) after := by
  obtain ⟨draft, hsite, hlst⟩ := hdrafted
  obtain ⟨hlen, hshort, hroom, hafter, _, hbytes⟩ := hsite.compileText htext
  rw [hcontent] at hlen hbytes
  rw [← hlen] at hshort hroom hafter hbytes
  exact ⟨_, hafter, hlst.text hshort hroom hbytes⟩

end Drafted

end ThreadedForth
