
import ThreadedForth.Proofs.Actions
import ThreadedForth.Proofs.Dictionary.Chain

/-!
# What the dictionary writes

Each operation on the dictionary either fails and leaves memory as it was, or succeeds with the
cursors and the memory that are given here. A header that was laid down reads back.
-/

namespace ThreadedForth.Dictionary

open Utf8 Header Region

/-! ### Entering a header -/

/-- Memory after a counted name was laid down. -/
def nameSet (memory : Memory) (nameAddress : Nat) (name : List UInt8) : Memory :=
  (memory.setByte nameAddress (UInt8.ofNat name.length)).setBytes (nameAddress + 1) name

/-- Memory after the five cells of a header were laid down. -/
def headerSet (memory : Memory) (header : Nat) (link name flags does code : Cell) : Memory :=
  ((((memory.setCell (linkField header) link).setCell (nameField header) name).setCell
    (flagsField header) flags).setCell (doesField header) does).setCell
    (Header.token header) code

@[simp] theorem size_nameSet (memory : Memory) (nameAddress : Nat) (name : List UInt8) :
    (nameSet memory nameAddress name).size = memory.size := by
  rw [nameSet, Memory.size_setBytes, Memory.size_setByte]

theorem sameOutside_nameSet (memory : Memory) (nameAddress : Nat) (name : List UInt8) :
    Memory.SameOutside (Region.mk nameAddress (nameAddress + (name.length + 1))).Holds memory
      (nameSet memory nameAddress name) := by
  have hlen := Memory.sameOutside_setByte memory nameAddress (UInt8.ofNat name.length)
  have hname := Memory.sameOutside_setBytes
    (memory.setByte nameAddress (UInt8.ofNat name.length)) (nameAddress + 1) name
  refine (hlen.mono fun addr hin => ?_).trans (hname.mono fun addr hin => ?_)
  · rw [holds_mk] at hin ⊢
    omega
  · rw [holds_mk] at hin ⊢
    omega

theorem sameOutside_headerSet (memory : Memory) (header : Nat) (link name flags does code : Cell) :
    Memory.SameOutside (Region.mk header (header + Header.size)).Holds memory
      (headerSet memory header link name flags does code) := by
  have hcell : ∀ (before : Memory) (offset : Nat) (value : Cell), offset + 4 ≤ Header.size →
      Memory.SameOutside (Region.mk header (header + Header.size)).Holds before
        (before.setCell (header + offset) value) := by
    intro before offset value hoff
    refine (Memory.sameOutside_setCell before (header + offset) value).mono fun addr hin => ?_
    rw [holds_mk] at hin ⊢
    omega
  exact ((((hcell _ 0 _ (by decide)).trans (hcell _ 4 _ (by decide))).trans
    (hcell _ 8 _ (by decide))).trans (hcell _ 12 _ (by decide))).trans (hcell _ 16 _ (by decide))

theorem cellAt_headerSet (memory : Memory) (header : Nat) (link name flags does code : Cell)
    (hrange : header + size ≤ memory.size) :
    let after := headerSet memory header link name flags does code
    after.cellAt (linkField header) = link ∧ after.cellAt (nameField header) = name ∧
      after.cellAt (flagsField header) = flags ∧ after.cellAt (doesField header) = does ∧
      after.cellAt (Header.token header) = code := by
  have hapart : ∀ (before : Memory) (low high : Nat) (value : Cell), low + 4 ≤ high →
      (before.setCell (header + high) value).cellAt (header + low) = before.cellAt (header + low) :=
    fun before low high value hlow => Memory.cellAt_setCell_of_apart before value (.inl (by omega))
  have hsame : ∀ (before : Memory) (offset : Nat) (value : Cell), before.size = memory.size →
      offset + 4 ≤ size → (before.setCell (header + offset) value).cellAt (header + offset) = value :=
    fun before offset value hbefore hoff =>
      Memory.cellAt_setCell before (header + offset) value (by omega)
  refine ⟨?_, ?_, ?_, ?_, ?_⟩
  · exact (hapart _ 0 16 _ (by decide)).trans ((hapart _ 0 12 _ (by decide)).trans
      ((hapart _ 0 8 _ (by decide)).trans ((hapart _ 0 4 _ (by decide)).trans
        (hsame _ 0 _ rfl (by decide)))))
  · exact (hapart _ 4 16 _ (by decide)).trans ((hapart _ 4 12 _ (by decide)).trans
      ((hapart _ 4 8 _ (by decide)).trans (hsame _ 4 _ (by simp) (by decide))))
  · exact (hapart _ 8 16 _ (by decide)).trans ((hapart _ 8 12 _ (by decide)).trans
      (hsame _ 8 _ (by simp) (by decide)))
  · exact (hapart _ 12 16 _ (by decide)).trans (hsame _ 12 _ (by simp) (by decide))
  · exact hsame _ 16 _ (by simp) (by decide)

/-- Memory after a header and its name were laid down. -/
def entered (memory : Memory) (header nameAddress latest : Nat) (name : List UInt8) (flags code : Cell) : Memory :=
  headerSet (nameSet memory nameAddress name) header (Cell.ofNat latest) (Cell.ofNat nameAddress) flags
    0 code

/-- The header that was laid down, and its name, read back. -/
theorem holdsEntry_entered {memory : Memory} {header nameAddress latest : Nat} (name : String)
    (flags code : Cell) (hsize : memory.size < 2 ^ 31) (halign : header % 4 = 0)
    (hhdr : header + size ≤ nameAddress) (hname : nameAddress + ((encode name).length + 1) ≤ memory.size)
    (hlen : (encode name).length ≤ maxNameLength) :
    HoldsEntry (entered memory header nameAddress latest (encode name) flags code) nameAddress
      { address := header, link := Cell.toAddress (Cell.ofNat latest), name, flags, does := 0, code } := by
  -- The header lies below the name, so laying it down leaves the name alone.
  have hsame := sameOutside_headerSet (nameSet memory nameAddress (encode name)) header
    (Cell.ofNat latest) (Cell.ofNat nameAddress) flags 0 code
  have habove : ∀ addr, nameAddress ≤ addr →
      ¬ (Region.mk header (header + Header.size)).Holds addr := by
    intro addr haddr hin
    rw [Region.holds_mk] at hin
    omega
  obtain ⟨hlinkCell, hnameCell, hflagsCell, hdoesCell, hcodeCell⟩ :=
    cellAt_headerSet (nameSet memory nameAddress (encode name)) header (Cell.ofNat latest)
      (Cell.ofNat nameAddress) flags 0 code (by rw [size_nameSet]; omega)
  constructor
  · exact halign
  · exact congrArg Cell.toAddress hlinkCell
  · exact (congrArg Cell.toAddress hnameCell).trans (Cell.toAddress_ofNat (by omega))
  · exact hflagsCell
  · exact congrArg Cell.toAddress hdoesCell
  · exact hcodeCell
  · exact hlen
  · have hbelow : ¬ (Region.mk (nameAddress + 1)
        (nameAddress + 1 + (encode name).length)).Holds nameAddress := by
      rw [Region.holds_mk]
      omega
    rw [entered, hsame.byteAt nameAddress (habove nameAddress (Nat.le_refl _)), nameSet,
      (Memory.sameOutside_setBytes _ (nameAddress + 1) (encode name)).byteAt nameAddress hbelow,
      Memory.byteAt_setByte _ _ _ _ (by omega), if_pos rfl]
  · change Memory.bytesAt _ (nameAddress + 1) (encode name).length = encode name
    rw [entered, hsame.bytesAt (by rw [size_nameSet]; omega)
      (fun other hlow _ => habove other (by omega)), nameSet,
      Memory.bytesAt_setBytes _ _ _ (by rw [Memory.size_setByte]; omega)]

theorem sameOutside_entered (memory : Memory) {here header names : Nat} (latest : Nat)
    (name : List UInt8) (flags code : Cell) (hhere : here ≤ header) (hroom : name.length + 1 ≤ names)
    (hmeet : header + Header.size < names - (name.length + 1)) :
    Memory.SameOutside (Region.mk here names).Holds memory
      (entered memory header (names - (name.length + 1)) latest name flags code) := by
  refine ((sameOutside_nameSet memory (names - (name.length + 1)) name).mono fun addr hin => ?_).trans
    ((sameOutside_headerSet _ header (Cell.ofNat latest) (Cell.ofNat (names - (name.length + 1))) flags
      0 code).mono fun addr hin => ?_)
  · rw [holds_mk] at hin ⊢
    omega
  · rw [holds_mk] at hin ⊢
    omega

/-- With room for both, the header is laid down at the next cell boundary and its name just below the older
names. -/
theorem enter_of_room {dictionary : Dictionary} {memory : Memory} {name : List UInt8} (flags code : Cell)
    (hnames : dictionary.names ≤ memory.size) (hlen : name.length ≤ maxNameLength)
    (hroom : name.length + 1 ≤ dictionary.names)
    (hmeet : aligned dictionary.here + size < dictionary.names - (name.length + 1)) :
    dictionary.enter name flags code memory =
      .ok (Header.token (aligned dictionary.here),
        { dictionary with
          here := aligned dictionary.here + size
          names := dictionary.names - (name.length + 1)
          latest := aligned dictionary.here })
        (entered memory (aligned dictionary.here) (dictionary.names - (name.length + 1))
          dictionary.latest name flags code) := by
  have halign := aligned_mod dictionary.here
  rw [enter]
  generalize aligned dictionary.here = header at halign hmeet
  rw [if_neg (by omega), if_neg (by omega), if_neg (by omega)]
  generalize hnameAddress : dictionary.names - (name.length + 1) = nameAddress at hmeet
  rw [size] at hmeet
  have hcell : ∀ (before : Memory) (offset : Nat) (value : Cell), before.size = memory.size →
      offset + 4 ≤ size → offset % 4 = 0 →
      Memory.writeCell (header + offset) value before =
        .ok () (before.setCell (header + offset) value) := by
    intro before offset value hbefore hoff hmod
    rw [size] at hoff
    exact Memory.writeCell_eq_ok value (by omega) (by omega)
  refine (bind_of_ok (Memory.writeByte_eq_ok _ (by omega))).trans ?_
  refine (bind_of_ok (Memory.writeBytes_eq_ok name (by rw [Memory.size_setByte]; omega))).trans ?_
  refine (bind_of_ok (hcell _ 0 _ (by simp) (by decide) (by decide))).trans ?_
  refine (bind_of_ok (hcell _ 4 _ (by simp) (by decide) (by decide))).trans ?_
  refine (bind_of_ok (hcell _ 8 _ (by simp) (by decide) (by decide))).trans ?_
  refine (bind_of_ok (hcell _ 12 _ (by simp) (by decide) (by decide))).trans ?_
  exact bind_of_ok (hcell _ 16 _ (by simp) (by decide) (by decide))

/-- Entering a header fails without a change, or lays the header down at the next cell boundary and
its name just below the older names, with at least a byte between the two. -/
theorem enter_cases (dictionary : Dictionary) {memory : Memory} (name : List UInt8) (flags code : Cell)
    (hnames : dictionary.names ≤ memory.size) :
    (∃ fault, dictionary.enter name flags code memory = .error fault memory) ∨
      (name.length ≤ maxNameLength ∧ name.length + 1 ≤ dictionary.names ∧
        aligned dictionary.here + size < dictionary.names - (name.length + 1) ∧
        dictionary.enter name flags code memory =
          .ok (Header.token (aligned dictionary.here),
            { dictionary with
              here := aligned dictionary.here + size
              names := dictionary.names - (name.length + 1)
              latest := aligned dictionary.here })
            (entered memory (aligned dictionary.here) (dictionary.names - (name.length + 1))
              dictionary.latest name flags code)) := by
  by_cases hlong : maxNameLength < name.length
  · exact .inl ⟨_, by rw [enter, if_pos hlong]; rfl⟩
  by_cases hroom : dictionary.names < name.length + 1
  · exact .inl ⟨_, by rw [enter, if_neg hlong, if_pos hroom]; rfl⟩
  by_cases hmeet : dictionary.names - (name.length + 1) ≤ aligned dictionary.here + size
  · exact .inl ⟨_, by rw [enter, if_neg hlong, if_neg hroom, if_pos hmeet]; rfl⟩
  exact .inr ⟨by omega, by omega, by omega,
    enter_of_room flags code hnames (by omega) (by omega) (by omega)⟩

/-! ### Other writes -/

/-- Read the flags of a header and write them back changed. -/
def reflag (header : Nat) (change : Cell → Cell) : MemoryM Unit := fun memory =>
  match memory.readCell (flagsField header) with
  | .ok flags => Memory.writeCell (flagsField header) (change flags) memory
  | .error fault => .error fault memory

theorem clearFlag_eq (header : Nat) (flag : Cell) : clearFlag header flag = reflag header (· &&& ~~~flag) :=
  rfl

theorem reflag_cases (header : Nat) (change : Cell → Cell) (memory : Memory) :
    (∃ fault, reflag header change memory = .error fault memory) ∨
      reflag header change memory =
        .ok () (memory.setCell (flagsField header)
          (change (memory.cellAt (flagsField header)))) := by
  rw [reflag]
  cases hread : memory.readCell (flagsField header) with
  | error fault => exact .inl ⟨fault, rfl⟩
  | ok flags =>
    obtain ⟨hrange, halign, rfl⟩ := Memory.of_readCell_eq_ok hread
    exact .inr (Memory.writeCell_eq_ok _ hrange halign)

theorem setDoes_cases (header : Nat) (code : Cell) (does : Nat) (memory : Memory) :
    (∃ fault, setDoes header code does memory = .error fault memory) ∨
      setDoes header code does memory =
        .ok () ((memory.setCell (Header.token header) code).setCell (doesField header)
          (Cell.ofNat does)) := by
  rcases Memory.guarded_cases (·.checkAligned (Header.token header) 4)
    (·.setCell (Header.token header) code) memory with ⟨hcheck, hwrite⟩ | ⟨fault, _, hwrite⟩
  · obtain ⟨hrange, halign⟩ := Memory.of_checkAligned_eq_ok hcheck
    rw [Header.token] at hrange halign
    refine .inr ((bind_of_ok hwrite).trans (Memory.writeCell_eq_ok _ ?_ ?_))
    · rw [Memory.size_setCell, doesField]
      omega
    · rw [doesField]
      omega
  · exact .inl ⟨fault, bind_of_error hwrite⟩

theorem comma_cases (dictionary : Dictionary) (value : Cell) (memory : Memory) :
    (∃ fault, dictionary.comma value memory = .error fault memory) ∨
      (dictionary.here + 4 ≤ dictionary.names ∧
        dictionary.comma value memory = .ok { dictionary with here := dictionary.here + 4 }
          (memory.setCell dictionary.here value)) := by
  rw [comma]
  split
  · exact .inl ⟨_, rfl⟩
  · next hroom =>
    rcases Memory.guarded_cases (·.checkAligned dictionary.here 4) (·.setCell dictionary.here value)
      memory with ⟨_, hwrite⟩ | ⟨fault, _, hwrite⟩
    · exact .inr ⟨by omega, bind_of_ok hwrite⟩
    · exact .inl ⟨fault, bind_of_error hwrite⟩

theorem aligned_of_comma {dictionary after : Dictionary} {value : Cell} {memory changed : Memory}
    (hcomma : dictionary.comma value memory = .ok after changed) : dictionary.here % 4 = 0 := by
  rw [comma] at hcomma
  split at hcomma
  · cases hcomma
  · obtain ⟨_, _, hwrite, -⟩ := of_bind_eq_ok hcomma
    rcases Memory.guarded_cases (·.checkAligned dictionary.here 4) (·.setCell dictionary.here value) memory with
      ⟨hcheck, -⟩ | ⟨fault, -, herror⟩
    · exact (Memory.of_checkAligned_eq_ok hcheck).2
    · cases hwrite.symm.trans herror

theorem comma_of_room {dictionary : Dictionary} {memory : Memory} (value : Cell)
    (hroom : dictionary.here + 4 ≤ dictionary.names) (hnames : dictionary.names ≤ memory.size)
    (halign : dictionary.here % 4 = 0) :
    dictionary.comma value memory = .ok { dictionary with here := dictionary.here + 4 }
      (memory.setCell dictionary.here value) := by
  rw [comma, if_neg (by omega)]
  exact bind_of_ok (Memory.writeCell_eq_ok value (by omega) halign)

theorem commaByte_cases (dictionary : Dictionary) (value : UInt8) (memory : Memory) :
    (∃ fault, dictionary.commaByte value memory = .error fault memory) ∨
      (dictionary.here + 1 ≤ dictionary.names ∧
        dictionary.commaByte value memory = .ok { dictionary with here := dictionary.here + 1 }
          (memory.setByte dictionary.here value)) := by
  rw [commaByte]
  split
  · exact .inl ⟨_, rfl⟩
  · next hroom =>
    rcases Memory.guarded_cases (·.check dictionary.here 1) (·.setByte dictionary.here value)
      memory with ⟨_, hwrite⟩ | ⟨fault, _, hwrite⟩
    · exact .inr ⟨by omega, bind_of_ok hwrite⟩
    · exact .inl ⟨fault, bind_of_error hwrite⟩

end ThreadedForth.Dictionary
