
import ThreadedForth.Proofs.Compiler.Landing
import ThreadedForth.Proofs.Compiler.Listing

/-!
# Reading a definition back

The decompiler knows nothing but cells: it has to find out where the instructions are, what is an operand and
what is text, and which `EXIT` is the last. It shows exactly the fragments that were compiled, one by one, and
stops at the `EXIT` that `;` compiled, as long as every other `EXIT` is one that an earlier branch goes past.
-/

namespace ThreadedForth

open WordM Utf8 List

/-! ### Compiling fragment by fragment -/

/-- Words compile fragments one after the other, with anything in between that leaves the definition alone. -/
inductive Compiles (first : Nat) : Machine → List Fragment → Machine → Prop where
  | done (m : Machine) : Compiles first m [] m
  | interlude {before middle after : Machine} {fragments : List Fragment} (hinterlude : Interlude first before middle)
      (hrest : Compiles first middle fragments after) : Compiles first before fragments after
  | word {before middle after : Machine} {fragments : List Fragment} {token : Cell} (name : String)
      (hordinary : Ordinary token) (hcomma : comma token before = .ok () middle)
      (hrest : Compiles first middle fragments after) : Compiles first before (.word token name :: fragments) after
  | exit {before middle after : Machine} {fragments : List Fragment}
      (hcompile : compile (.thread .exit) before = .ok () middle)
      (hrest : Compiles first middle fragments after) : Compiles first before (.exit :: fragments) after
  | number {before middle after : Machine} {fragments : List Fragment} {value : Number}
      (haccept : Interpreter.acceptNumber true value before = .ok () middle)
      (hrest : Compiles first middle fragments after) : Compiles first before (.ofNumber value :: fragments) after
  | text {before middle after : Machine} {fragments : List Fragment} {text : Source} {content : String}
      (hcontent : before.memory.bytesAt text.address text.length = encode content)
      (htext : InputWord.compileText text before = .ok () middle)
      (hrest : Compiles first middle fragments after) : Compiles first before (.text content :: fragments) after
  | control {before middle after : Machine} {fragments : List Fragment} {word : ControlWord}
      (hword : word.perform before = .ok () middle)
      (hrest : Compiles first middle fragments after) : Compiles first before (word.fragments ++ fragments) after

variable {first : Nat} {memory : Memory} {closed : Machine}

theorem Compiles.drafted {before after : Machine} {fragments more : List Fragment}
    (hcompiles : Compiles first before more after) (hdrafted : Drafted first fragments before) :
    Drafted first (fragments ++ more) after := by
  induction hcompiles generalizing fragments with
  | done => rwa [append_nil]
  | interlude hinterlude _ ih => exact ih (hdrafted.interlude hinterlude)
  | word name hordinary hcomma _ ih =>
    rw [append_cons]
    exact ih (hdrafted.of_performs (fun _ => performs_comma _) (fun _ _ hlst => hlst.word hordinary name) hcomma)
  | exit hcompile _ ih =>
    rw [append_cons]
    exact ih (hdrafted.of_performs (fun _ => performs_compile _) (fun _ _ hlst => hlst.exit) hcompile)
  | number haccept _ ih =>
    rw [append_cons]
    exact ih (hdrafted.of_performs (fun _ => performs_acceptNumber _) (fun _ _ hlst => hlst.number) haccept)
  | text hcontent htext _ ih =>
    rw [append_cons]
    exact ih (hdrafted.compileText hcontent htext)
  | control hword _ ih =>
    rw [← append_assoc]
    exact ih (hdrafted.of_performs (fun _ => ControlWord.performs _) (fun _ _ hlst => hlst.control) hword)

/-! ### Instructions -/

/-- The machine knows the word with a token by a name. Primitives are known by their own; another word is one of
the dictionary. -/
def Machine.Shows (m : Machine) (token : Cell) (name : String) : Prop :=
  match Prim.ofToken? token with
  | some prim => name = prim.name
  | none => ∃ address header, token = Cell.ofNat address ∧ address < 2 ^ 31 ∧
      m.dictionary.containsToken m.memory address = .ok true ∧
      Dictionary.header m.memory (Header.ofToken address) = .ok header ∧
      name = if header.name.isEmpty then ":noname@" ++ toString address else header.name

/-- The instruction that a fragment is, at its place in memory. -/
def Fragment.instruction (memory : Memory) (address : Nat) : Fragment → Instruction
  | cell value => .cell value
  | double value => .double value
  | text content => .text content
  | branch jump => .jump jump (memory.cellAt (address + 4))
  | exit => .exit
  | word _ name => .call name

/-- The instructions that fragments are. -/
def listing (memory : Memory) (address : Nat) : List Fragment → List Instruction
  | [] => []
  | fragment :: rest => fragment.instruction memory address :: listing memory (fragment.next address) rest

/-- Where the branch at an address goes. -/
def branchTarget (memory : Memory) (address : Nat) : Int := (address + 4 : Nat) + (memory.cellAt (address + 4)).toInt

namespace Machine

variable {m : Machine} {addr : Nat}

variable {token : Cell}

theorem instruction_of_read (hread : m.memory.readCell addr = .ok token) :
    m.instruction addr = (match Prim.ofToken? token with
      | some (.thread .lit) => do return (.cell (← m.memory.readCell (addr + 4)), addr + 8)
      | some (.thread .twoLit) => do
        let low ← m.memory.readCell (addr + 4)
        let high ← m.memory.readCell (addr + 8)
        return (.double (DoubleCell.join low high), addr + 12)
      | some (.thread .textLit) => do
        let length := (← m.memory.readCell (addr + 4)).toNatClampNeg
        let content ← m.memory.readText (addr + 8) length
        return (.text content, aligned (addr + 8 + length))
      | some (.thread .exit) => return (.exit, addr + 4)
      | some (.thread word) =>
        if Instruction.takesOffset word then do
          return (.jump word (← m.memory.readCell (addr + 4)), addr + 8)
        else return (.call word.entry.name, addr + 4)
      | some prim => return (.call prim.name, addr + 4)
      | none => do
        match ← m.wordName? token with
        | some name => return (.call name, addr + 4)
        | none => return (.unknown token, addr + 4)) := by
  rw [instruction, hread]
  rfl

theorem instruction_of_word {name : String} (hread : m.memory.readCell addr = .ok token)
    (hordinary : Ordinary token) (hshows : m.Shows token name) :
    m.instruction addr = .ok (.call name, addr + 4) := by
  rw [instruction_of_read hread]
  rw [Shows] at hshows
  obtain ⟨hplain, hexit⟩ := hordinary
  split
  · next hword => exact absurd rfl (hplain _ hword).1
  · next hword => exact absurd rfl (hplain _ hword).2.1
  · next hword => exact absurd rfl (hplain _ hword).2.2.1
  · next hword => exact absurd hword hexit
  · next word _ _ _ _ hword =>
    rw [hword] at hshows
    rw [(hplain word hword).2.2.2, hshows]
    rfl
  · next prim _ _ _ _ _ hprim =>
    rw [hprim] at hshows
    rw [hshows]
    rfl
  · next hnone =>
    rw [hnone] at hshows
    obtain ⟨place, header, rfl, hplace, hcontains, hhdr, rfl⟩ := hshows
    have hname : m.wordName? (Cell.ofNat place) =
        .ok (some (if header.name.isEmpty then ":noname@" ++ toString place else header.name)) := by
      rw [wordName?, if_neg (Cell.ofNat_not_neg hplace), Cell.toNatClampNeg_ofNat hplace]
      simp only [hcontains, hhdr, bind, Except.bind, if_true]
      rfl
    rw [hname]
    rfl

theorem instruction_of_textHeld {bytes : List UInt8} (hheld : TextHeld m.memory.cellAt addr bytes)
    (halign : addr % 4 = 0) (hrange : aligned (addr + 8 + bytes.length) ≤ m.memory.size) :
    m.instruction addr = .ok (.text (decodeLossy bytes), aligned (addr + 8 + bytes.length)) := by
  obtain ⟨hcall, hcount, hlen, _⟩ := id hheld
  have hend := le_aligned (addr + 8 + bytes.length)
  have hfst := Memory.readCell_eq_ok (show addr + 4 ≤ m.memory.size by omega) halign
  have hoperand := Memory.readCell_eq_ok (show addr + 4 + 4 ≤ m.memory.size by omega) (by omega)
  have htext : m.memory.readText (addr + 8) bytes.length = .ok (decodeLossy bytes) := by
    rw [Memory.readText, Memory.readBytes_eq_ok (by omega), hheld.bytesAt_eq (by omega)]
    rfl
  rw [hcall] at hfst
  rw [hcount] at hoperand
  rw [instruction_of_read hfst, Prim.ofToken?_token]
  simp only [hoperand, bind, Except.bind, Cell.toNatClampNeg_ofNat hlen, htext]
  rfl

/-- An instruction is read as the fragment that was compiled. -/
theorem instruction_of_held {fragment : Fragment} (hheld : fragment.Held m.memory.cellAt addr)
    (halign : addr % 4 = 0) (hrange : fragment.next addr ≤ m.memory.size)
    (hshows : ∀ token name, fragment = .word token name → m.Shows token name) :
    m.instruction addr = .ok (fragment.instruction m.memory addr, fragment.next addr) := by
  have hread : ∀ offset, offset % 4 = 0 → addr + offset + 4 ≤ fragment.next addr →
      m.memory.readCell (addr + offset) = .ok (m.memory.cellAt (addr + offset)) :=
    fun offset hoff hfits => Memory.readCell_eq_ok (by omega) (by omega)
  have hfst := hread 0 rfl (fragment.add_four_le_next addr)
  rw [Nat.add_zero] at hfst
  cases fragment with
  | cell value =>
    obtain ⟨hcall, hvalue⟩ := hheld
    have hoperand := hread 4 rfl (Nat.le_refl _)
    rw [hcall] at hfst
    rw [hvalue] at hoperand
    rw [instruction_of_read hfst, Prim.ofToken?_token]
    simp only [hoperand]
    rfl
  | double value =>
    obtain ⟨hcall, hlow, hhigh⟩ := hheld
    have hfirstOperand := hread 4 rfl (Nat.le_succ_of_le (Nat.le_succ_of_le (Nat.le_succ_of_le (Nat.le_succ _))))
    have hsecondOperand := hread 8 rfl (Nat.le_refl _)
    rw [hcall] at hfst
    rw [hlow] at hfirstOperand
    rw [hhigh] at hsecondOperand
    rw [instruction_of_read hfst, Prim.ofToken?_token]
    simp only [hfirstOperand, hsecondOperand]
    change Except.ok (Instruction.double (DoubleCell.join (DoubleCell.low value) (DoubleCell.high value)), _) = _
    rw [DoubleCell.join_low_high]
    rfl
  | text content =>
    have hinstruction := instruction_of_textHeld hheld halign hrange
    rwa [decodeLossy_encode] at hinstruction
  | branch jump =>
    obtain ⟨hcall, htakes⟩ := hheld
    have hoperand := hread 4 rfl (Nat.le_refl _)
    rw [hcall] at hfst
    rw [instruction_of_read hfst, Prim.ofToken?_token]
    cases jump <;> first | cases htakes; done | (simp only [hoperand]; rfl)
  | exit =>
    change m.memory.cellAt addr = _ at hheld
    rw [hheld] at hfst
    rw [instruction_of_read hfst, Prim.ofToken?_token]
    rfl
  | word token name =>
    rw [hheld.1] at hfst
    exact instruction_of_word hfst hheld.2 (hshows token name rfl)

end Machine

/-! ### Walking through a definition -/

/-- A walk over fragments is not stopped by an `EXIT` among them, and is at the end of what it knows to be reached
when it comes to `finish`. -/
def Passes (memory : Memory) (finish : Nat) : Nat → Nat → List Fragment → Prop
  | _, furthest, [] => furthest ≤ finish
  | address, furthest, fragment :: rest =>
    (fragment = .exit → address < furthest) ∧
      Passes memory finish (fragment.next address)
        (Machine.reach address furthest (fragment.instruction memory address)) rest

theorem Machine.instructionsFrom_of_laid {m : Machine} {addr furthest steps base : Nat}
    {fragments : List Fragment} {shown : Array String} (hlaid : Laid m.memory.cellAt addr fragments)
    (halign : addr % 4 = 0)
    (hexit : m.memory.cellAt (listEnd addr fragments) = Cell.ofNat (Prim.thread .exit).token)
    (hhere : listEnd addr fragments < m.dictionary.here) (hrange : listEnd addr fragments + 4 ≤ m.memory.size)
    (hshows : ∀ token name, Fragment.word token name ∈ fragments → m.Shows token name)
    (hpasses : Passes m.memory (listEnd addr fragments) addr furthest fragments)
    (hsteps : fragments.length < steps) :
    m.instructionsFrom base steps addr furthest shown =
      .ok (shown ++ ((listing m.memory addr fragments).map (Instruction.render base) ++ [";"]).toArray) := by
  induction fragments generalizing addr furthest steps shown with
  | nil =>
    obtain ⟨steps, rfl⟩ : ∃ fewer, steps = fewer + 1 := ⟨steps - 1, by omega⟩
    change addr < m.dictionary.here at hhere
    have hlast := @instruction_of_held m addr .exit hexit halign hrange nofun
    rw [instructionsFrom, if_neg (Nat.not_le.2 hhere), hlast]
    change (if Instruction.exit = .exit ∧ furthest ≤ addr then _ else _) = _
    rw [if_pos ⟨rfl, hpasses⟩]
    rfl
  | cons fragment rest ih =>
    obtain ⟨steps, rfl⟩ : ∃ fewer, steps = fewer + 1 := ⟨steps - 1, by omega⟩
    obtain ⟨hheld, hrest⟩ := hlaid
    obtain ⟨hthis, hpasses⟩ := hpasses
    have hnext := fragment.add_four_le_next addr
    have hend := le_listEnd (fragment.next addr) rest
    change listEnd (fragment.next addr) rest < _ at hhere
    change listEnd (fragment.next addr) rest + 4 ≤ _ at hrange
    have hread := instruction_of_held hheld halign (by omega) fun token name hword =>
      hshows token name (hword ▸ mem_cons_self)
    have hmod : fragment.next addr % 4 = 0 := by
      rw [← fragment.instructionEnd_eq hheld]
      exact instructionEnd_mod halign
    rw [instructionsFrom, if_neg (by omega), hread]
    change (if fragment.instruction m.memory addr = .exit ∧ furthest ≤ addr then _ else _) = _
    rw [if_neg]
    · refine (ih hrest hmod hexit hhere hrange (fun token name hword => hshows token name (mem_cons_of_mem _ hword))
        hpasses (by rw [length_cons] at hsteps; omega)).trans ?_
      rw [listing]
      simp
    · rintro ⟨hstop, hreached⟩
      have hlast : fragment = .exit := by
        cases fragment with
        | exit => rfl
        | _ => cases hstop
      have hfar := hthis hlast
      omega

/-- Every `EXIT` among the fragments lies before the target of a branch that was compiled earlier. -/
def ExitsCovered (memory : Memory) (first : Nat) (fragments : List Fragment) : Prop :=
  ∀ front back, fragments = front ++ .exit :: back →
    ∃ start jump rest, front = start ++ .branch jump :: rest ∧
      (listEnd first front : Int) < branchTarget memory (listEnd first start)

/-- No branch among the fragments goes beyond an address. -/
def BranchesWithin (memory : Memory) (finish first : Nat) (fragments : List Fragment) : Prop :=
  ∀ start jump rest, fragments = start ++ .branch jump :: rest → branchTarget memory (listEnd first start) ≤ finish

theorem le_reach (addr furthest : Nat) (instruction : Instruction) :
    furthest ≤ Machine.reach addr furthest instruction := by
  cases instruction with
  | jump word offset => exact Nat.le_max_left _ _
  | _ => exact Nat.le_refl _

theorem target_le_reach (memory : Memory) (addr furthest : Nat) (jump : ThreadWord) :
    branchTarget memory addr ≤
      Machine.reach addr furthest ((Fragment.branch jump).instruction memory addr) := by
  have hmax := Nat.le_max_right furthest ((addr + 4 : Int) + (memory.cellAt (addr + 4)).toInt).toNat
  change _ ≤ ((max furthest _ : Nat) : Int)
  rw [branchTarget]
  omega

theorem reach_le {addr furthest finish : Nat} {fragment : Fragment} (hle : furthest ≤ finish)
    (hbr : ∀ jump, fragment = .branch jump → branchTarget memory addr ≤ finish) :
    Machine.reach addr furthest (fragment.instruction memory addr) ≤ finish := by
  cases fragment with
  | branch jump =>
    have htarget := hbr jump rfl
    rw [branchTarget] at htarget
    refine Nat.max_le.2 ⟨hle, ?_⟩
    omega
  | _ => exact hle

theorem passes_of_covered {memory : Memory} {first finish furthest : Nat} {done rest : List Fragment}
    (hcovered : ExitsCovered memory first (done ++ rest)) (hwithin : BranchesWithin memory finish first (done ++ rest))
    (hle : furthest ≤ finish)
    (hreached : ∀ start jump back, done = start ++ .branch jump :: back →
      branchTarget memory (listEnd first start) ≤ furthest) :
    Passes memory finish (listEnd first done) furthest rest := by
  induction rest generalizing done furthest with
  | nil => exact hle
  | cons fragment rest ih =>
    have hsplit : done ++ fragment :: rest = (done ++ [fragment]) ++ rest := by simp
    have hplace : fragment.next (listEnd first done) = listEnd first (done ++ [fragment]) := by
      rw [listEnd_append]
      rfl
    refine ⟨fun hexit => ?_, ?_⟩
    · subst hexit
      obtain ⟨start, jump, back, hfront, hfar⟩ := hcovered done rest rfl
      have hknown := hreached start jump back hfront
      omega
    · rw [hplace]
      rw [hsplit] at hcovered hwithin
      refine ih hcovered hwithin (reach_le hle fun jump hbr => ?_) fun start jump back hdone => ?_
      · subst hbr
        exact hwithin done jump rest (by simp)
      · rcases List.eq_nil_or_concat back with rfl | ⟨front, last, rfl⟩
        · obtain ⟨rfl, hlast⟩ := append_inj' hdone rfl
          cases hlast
          exact target_le_reach _ _ _ _
        · obtain ⟨hfront, _⟩ := append_inj' (show done ++ [fragment] = (start ++ .branch jump :: front) ++ [last] by
            rw [hdone]; simp) rfl
          have hold := hreached start jump front hfront
          have hgrow := le_reach (listEnd first done) furthest (fragment.instruction memory (listEnd first done))
          omega

/-! ### What is shown of a definition -/

/-- The code of a definition is still in memory as it was when the definition was closed. -/
structure CodeKept (first : Nat) (closed later : Machine) : Prop where
  size_eq : later.memory.size = closed.memory.size
  here_le : closed.dictionary.here ≤ later.dictionary.here
  bytes : ∀ address, first ≤ address → address < closed.dictionary.here →
    later.memory.byteAt address = closed.memory.byteAt address

theorem CodeKept.cellAt_eq {first addr : Nat} {closed later : Machine} (hkept : CodeKept first closed later)
    (hfst : first ≤ addr) (hhere : addr + 4 ≤ closed.dictionary.here) :
    later.memory.cellAt addr = closed.memory.cellAt addr := by
  rw [Memory.cellAt, Memory.cellAt, hkept.bytes _ hfst (by omega), hkept.bytes _ (by omega) (by omega),
    hkept.bytes _ (by omega) (by omega), hkept.bytes _ (by omega) (by omega)]

theorem Drafted.close {fragments : List Fragment} {filled : Machine}
    (hdrafted : Drafted first fragments filled) (hclose : DefiningWord.semicolon.perform filled = .ok () closed) :
    first % 4 = 0 ∧ Laid closed.memory.cellAt first fragments ∧
      closed.memory.cellAt (listEnd first fragments) = Cell.ofNat (Prim.thread .exit).token ∧
      closed.dictionary.here = listEnd first fragments + 4 ∧
      BranchesWithin closed.memory (listEnd first fragments) first fragments := by
  obtain ⟨draft, hsite, htrk, hlaid, hhere⟩ := hdrafted
  obtain ⟨_, _, hend, _, _, hagree, hexit⟩ := hsite.close htrk hclose
  have hmod := htrk.coded.isAligned
  rw [← hhere] at hagree hexit hend
  have hclosed := hlaid.congr hmod hagree
  refine ⟨hmod, hclosed, hexit, hend, fun start jump rest hsplit => ?_⟩
  rw [hsplit] at hclosed
  obtain ⟨hstart, ⟨hcall, htakes⟩, _⟩ := Laid.append_iff.1 hclosed
  have hbdry := hstart.boundary (Boundary.start closed.memory.cellAt first)
  have hjumps : Jumps (closed.memory.cellAt (listEnd first start)) := hcall ▸ jumps_token htakes
  have hle : listEnd first start ≤ draft.here := by
    rw [← hhere, hsplit, listEnd_append]
    exact Nat.le_trans (Nat.le_add_right _ _) (le_listEnd _ _)
  obtain ⟨_, target, _, htarget, hdist⟩ := hsite.lands_of_close htrk hclose hbdry hle hjumps
  rw [branchTarget, ← hdist, hhere]
  omega

theorem listing_congr {other : Memory} {addr : Nat} {fragments : List Fragment}
    (hsame : ∀ inner, addr ≤ inner → inner + 4 ≤ listEnd addr fragments →
      other.cellAt inner = memory.cellAt inner) :
    listing other addr fragments = listing memory addr fragments := by
  induction fragments generalizing addr with
  | nil => rfl
  | cons fragment rest ih =>
    have hnext := fragment.add_four_le_next addr
    have hend := le_listEnd (fragment.next addr) rest
    rw [listEnd] at hsame
    rw [listing, listing, ih fun inner hlow hhigh => hsame inner (by omega) hhigh]
    congr 1
    cases fragment with
    | branch jump =>
      change addr + 8 + _ ≤ listEnd (addr + 8) rest at hend
      change ∀ inner, _ → inner + 4 ≤ listEnd (addr + 8) rest → _ at hsame
      exact congrArg (Instruction.jump jump) (hsame (addr + 4) (by omega) (by omega))
    | _ => rfl

theorem branchTarget_of_kept {later : Machine} {start rest : List Fragment} {jump : ThreadWord}
    (hkept : CodeKept first closed later)
    (hhere : closed.dictionary.here = listEnd first (start ++ .branch jump :: rest) + 4) :
    branchTarget later.memory (listEnd first start) = branchTarget closed.memory (listEnd first start) := by
  have hstart := le_listEnd first start
  have hrest := le_listEnd (listEnd first start + 8) rest
  rw [listEnd_append] at hhere
  change _ = listEnd (listEnd first start + 8) rest + 4 at hhere
  rw [branchTarget, branchTarget, hkept.cellAt_eq (by omega) (by omega)]

theorem Machine.shows_of_lexicon {m : Machine} {entries : List Header} {entry : Header}
    (hlex : Lexicon entries m) (hentry : entry ∈ entries)
    (hother : Prim.ofToken? (Cell.ofNat entry.xt) = none) (hname : entry.name.isEmpty = false) :
    m.Shows (Cell.ofNat entry.xt) entry.name := by
  obtain ⟨_, _, _, hins⟩ := Dictionary.Represents.inside hlex hentry
  have hsize := hlex.size_lt
  rw [Shows, hother]
  refine ⟨entry.xt, entry, rfl, ?_, ?_, ?_, ?_⟩
  · change entry.address + 16 < 2 ^ 31
    rw [Header.size] at hins
    omega
  · rw [Dictionary.Represents.containsToken_eq hlex]
    exact congrArg Except.ok (any_eq_true.2 ⟨entry, hentry, beq_self_eq_true _⟩)
  · rw [show Header.ofToken entry.xt = entry.address from Nat.add_sub_cancel _ _]
    exact Dictionary.Represents.header_eq hlex hentry
  · rw [hname]
    rfl

theorem Draft.exists_if_exit {draft : Draft} (token : Cell) (hroom : draft.here + 16 ≤ draft.names)
    (hopen : draft.markers.length < maxMarkers) :
    ∃ divided left joined called, ControlWord.if_.draft draft = some divided ∧
      divided.compile (.thread .exit) = some left ∧ ControlWord.then_.draft left = some joined ∧
      joined.emit token = some called ∧ called.here = draft.here + 16 ∧ called.names = draft.names ∧
      called.markers = draft.markers ∧
      called.cells (draft.here + 4) = Cell.ofNat (draft.here + 12) - Cell.ofNat (draft.here + 4) := by
  have hif : ControlWord.if_.draft draft = some { draft with
      cells := put (put draft.cells draft.here (Cell.ofNat (Prim.thread .zeroBranch).token)) (draft.here + 4) 0
      here := draft.here + 8, markers := ⟨.if_, draft.here + 4⟩ :: draft.markers } := by
    change (draft.emitBranch .zeroBranch).bind (mark ⟨.if_, draft.here + 4⟩) = _
    rw [emitBranch_eq, if_neg (by omega), Option.bind_some, mark, if_neg (Nat.not_le.2 hopen)]
  refine ⟨_, _, _, _, hif, if_neg ?_, rfl, if_neg ?_, rfl, rfl, rfl, ?_⟩
  · change ¬ draft.names < draft.here + 8 + 4
    omega
  · change ¬ draft.names < draft.here + 12 + 4
    omega
  · change put (put _ (draft.here + 4) _) (draft.here + 12) _ (draft.here + 4) = _
    rw [put_of_ne _ _ (by omega), put_self]

end ThreadedForth
