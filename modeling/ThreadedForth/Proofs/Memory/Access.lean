import ThreadedForth.Proofs.Arithmetic.Division

/-!
# Accesses to memory

Every read and write first tests its ranges, and then whether it asks for a cell between two cells.
`Tests` says so of a test, and how an access fails follows from that alone; what is left for each of
them is what it answers and what it leaves in memory.
-/

namespace ThreadedForth

open DoubleCell

/-- The number whose bytes these are, lowest first. -/
def ofLittleEndian : List UInt8 → Nat
  | [] => 0
  | byte :: rest => byte.toNat + 256 * ofLittleEndian rest

theorem Cell.toNat_ofBytes (b0 b1 b2 b3 : UInt8) :
    (ofBytes b0 b1 b2 b3).toUInt32.toNat = ofLittleEndian [b0, b1, b2, b3] := by
  have hbits : (ofBytes b0 b1 b2 b3).toBitVec = b3.toBitVec ++ (b2.toBitVec ++ (b1.toBitVec ++ b0.toBitVec)) := by
    apply BitVec.eq_of_getLsbD_eq
    intro i hi
    simp only [ofBytes, UInt32.toBitVec_toInt32, UInt32.toBitVec_or, UInt8.toBitVec_toUInt32,
      UInt32.toBitVec_shiftLeft, BitVec.getLsbD_or, BitVec.getLsbD_setWidth, UInt32.toBitVec_ofNat,
      BitVec.ofNat_eq_ofNat, BitVec.toNat_ofNat, Nat.reducePow, BitVec.reduceMod, Nat.reduceMod,
      BitVec.shiftLeft_eq', BitVec.getLsbD_shiftLeft, BitVec.getLsbD_append]
    grind
  have hnat : (ofBytes b0 b1 b2 b3).toUInt32.toNat =
      (b3.toBitVec ++ (b2.toBitVec ++ (b1.toBitVec ++ b0.toBitVec))).toNat := congrArg BitVec.toNat hbits
  have hjoin {n k : Nat} (x : BitVec n) (y : BitVec k) : (x ++ y).toNat = x.toNat * 2 ^ k + y.toNat := by
    rw [BitVec.toNat_append, ← Nat.shiftLeft_add_eq_or_of_lt y.isLt, Nat.shiftLeft_eq]
  rw [hnat, hjoin, hjoin, hjoin]
  simp only [ofLittleEndian, UInt8.toNat_toBitVec]
  omega

namespace Memory

variable {α : Type} {ranges sources : List Region} {cell? : Option Nat} {test : Memory → Except Fault Unit}

/-! ### How an access fails -/

/-- The step fails with an invalid address exactly if one of the ranges is not inside memory, and with
a misaligned one exactly if they are but the cell is between two cells. It fails in no other way, and
then nothing changes. What it has done otherwise is told by `done`. -/
structure Accesses (step : MemoryM α) (ranges : List Region) (cell? : Option Nat)
    (done : Memory → α → Memory → Prop) : Prop where
  invalid_iff (memory) : (∃ place after, step memory = .error (.invalidAddress place) after) ↔
    ∃ range ∈ ranges, memory.size < range.finish
  misaligned_iff (memory) : (∃ place after, step memory = .error (.misalignedAddress place) after) ↔
    (∀ range ∈ ranges, range.finish ≤ memory.size) ∧ ∃ address ∈ cell?, address % 4 ≠ 0
  fails (memory fault after) : step memory = .error fault after → after = memory ∧
    ((∃ range ∈ ranges, memory.size < range.finish ∧ fault = .invalidAddress (signedAddress range.start)) ∨
      ∃ address ∈ cell?, fault = .misalignedAddress (signedAddress address))
  done (memory answer after) : step memory = .ok answer after → done memory answer after

/-- A read as a step. -/
def observe (read : Memory → Except Fault α) : MemoryM α := fun memory =>
  match read memory with
  | .ok value => .ok value memory
  | .error fault => .error fault memory

/-- The read leaves memory alone. -/
def Reads (read : Memory → Except Fault α) (range : Region) (cell? : Option Nat)
    (holds : Memory → α → Prop) : Prop :=
  Accesses (observe read) [range] cell? fun before value after => after = before ∧ holds before value

/-- The cursors and all bytes outside the target are as they were. -/
structure Wrote (target : Region) (before after : Memory) : Prop where
  low_eq : after.low = before.low
  high_eq : after.high = before.high
  same : SameOutside target.Holds before after

/-- The write changes its target at most, and needs its sources inside memory too. -/
def Writes (step : MemoryM Unit) (sources : List Region) (target : Region) (cell? : Option Nat)
    (holds : Memory → Memory → Prop) : Prop :=
  Accesses step (sources ++ [target]) cell? fun before _ after => Wrote target before after ∧ holds before after

/-- The test refuses a range that is not inside memory, and then an address between two cells. -/
def Tests (test : Memory → Except Fault Unit) (ranges : List Region) (cell? : Option Nat) : Prop :=
  ∀ memory, (∃ range ∈ ranges, memory.size < range.finish ∧
      test memory = .error (.invalidAddress (signedAddress range.start))) ∨
    (∀ range ∈ ranges, range.finish ≤ memory.size) ∧
      ((∃ address ∈ cell?, address % 4 ≠ 0 ∧ test memory = .error (.misalignedAddress (signedAddress address))) ∨
        (∀ address ∈ cell?, address % 4 = 0) ∧ test memory = .ok ())

theorem check_eq (memory : Memory) (addr length : Nat) : memory.check addr length =
    if addr + length ≤ memory.size then .ok () else .error (.invalidAddress (signedAddress addr)) :=
  rfl

theorem tests_check (addr length : Nat) : Tests (·.check addr length) [⟨addr, addr + length⟩] none := by
  intro memory
  simp only [check_eq, List.mem_singleton, exists_eq_left, forall_eq]
  grind

theorem tests_checkAligned (addr length : Nat) :
    Tests (·.checkAligned addr length) [⟨addr, addr + length⟩] (some addr) := by
  intro memory
  simp only [checkAligned, check_eq, bind, Except.bind, throw, throwThe, MonadExceptOf.throw, pure,
    Except.pure, List.mem_singleton, exists_eq_left, forall_eq, Option.mem_def, Option.some.injEq,
    exists_eq_left', forall_eq']
  grind

theorem tests_move (source target length : Nat) :
    Tests (fun memory => do memory.check source length; memory.check target length)
      [⟨source, source + length⟩, ⟨target, target + length⟩] none := by
  intro memory
  simp only [check_eq, bind, Except.bind, List.mem_cons, List.not_mem_nil, or_false, exists_eq_or_imp,
    forall_eq_or_imp, exists_eq_left, forall_eq]
  grind

theorem Tests.accesses (htests : Tests test ranges cell?) {step : MemoryM α} (answer : Memory → α)
    (change : Memory → Memory) {done : Memory → α → Memory → Prop}
    (hok : ∀ memory, test memory = .ok () → step memory = .ok (answer memory) (change memory))
    (herror : ∀ memory fault, test memory = .error fault → step memory = .error fault memory)
    (hdone : ∀ memory, (∀ range ∈ ranges, range.finish ≤ memory.size) → (∀ addr ∈ cell?, addr % 4 = 0) →
      done memory (answer memory) (change memory)) : Accesses step ranges cell? done := by
  constructor <;> intro memory <;>
    rcases htests memory with ⟨range, hrange, hout, htest⟩ | ⟨hin, ⟨addr, hcell, hodd, htest⟩ | ⟨heven, htest⟩⟩ <;>
    grind

theorem Tests.writes {target : Region} (htests : Tests test (sources ++ [target]) cell?) {change : Memory → Memory}
    {holds : Memory → Memory → Prop} (hdone : ∀ memory, (∀ range ∈ sources ++ [target], range.finish ≤ memory.size) →
      (∀ addr ∈ cell?, addr % 4 = 0) → Wrote target memory (change memory) ∧ holds memory (change memory)) :
    Writes (guarded test change) sources target cell? holds := by
  refine htests.accesses (fun _ => ()) change (fun memory htest => ?_) (fun memory fault htest => ?_) hdone
  · rw [guarded, htest]
  · rw [guarded, htest]

theorem Tests.reads {range : Region} (htests : Tests test [range] cell?) {value : Memory → α} {holds : Memory → α → Prop}
    (hdone : ∀ memory, range.finish ≤ memory.size → (∀ addr ∈ cell?, addr % 4 = 0) → holds memory (value memory)) :
    Reads (fun memory => do test memory; return value memory) range cell? holds := by
  refine htests.accesses value id (fun memory htest => ?_) (fun memory fault htest => ?_) fun memory hin heven =>
    ⟨rfl, hdone memory (hin range List.mem_cons_self) heven⟩
  · rw [observe, htest]
    rfl
  · rw [observe, htest]
    rfl

/-! ### What a write changes -/

theorem wrote_setBytes (memory : Memory) (addr : Nat) (values : List UInt8) :
    Wrote ⟨addr, addr + values.length⟩ memory (memory.setBytes addr values) := by
  have hcursors (memory : Memory) (addr : Nat) : (memory.setBytes addr values).low = memory.low ∧
      (memory.setBytes addr values).high = memory.high := by
    induction values generalizing memory addr with
    | nil => exact ⟨rfl, rfl⟩
    | cons value rest ih => exact ih (memory.setByte addr value) (addr + 1)
  exact ⟨(hcursors memory addr).1, (hcursors memory addr).2, sameOutside_setBytes memory addr values⟩

theorem wrote_setCell (memory : Memory) (addr : Nat) (value : Cell) :
    Wrote ⟨addr, addr + 4⟩ memory (memory.setCell addr value) := by
  rw [setCell_eq_setBytes]
  exact wrote_setBytes memory addr [_, _, _, _]

theorem wrote_double (memory : Memory) (addr : Nat) (high low : Cell) :
    Wrote ⟨addr, addr + 8⟩ memory ((memory.setCell addr high).setCell (addr + 4) low) := by
  have hfst := wrote_setCell memory addr high
  have hsnd := wrote_setCell (memory.setCell addr high) (addr + 4) low
  refine ⟨hsnd.low_eq.trans hfst.low_eq, hsnd.high_eq.trans hfst.high_eq,
    (hfst.same.mono fun other hother => ?_).trans (hsnd.same.mono fun other hother => ?_)⟩
  · exact ⟨hother.1, Nat.lt_of_lt_of_le hother.2 (Nat.add_le_add_left (by decide) addr)⟩
  · exact ⟨Nat.le_of_add_right_le hother.1, hother.2⟩

theorem readBytes_setBytes {memory : Memory} {addr : Nat} {values : List UInt8}
    (hrange : addr + values.length ≤ memory.size) :
    (memory.setBytes addr values).readBytes addr values.length = .ok values := by
  rw [readBytes_eq_ok (by rwa [size_setBytes]), bytesAt_setBytes memory addr values hrange]

theorem readCell_setCell {memory : Memory} {addr : Nat} (value : Cell) (hrange : addr + 4 ≤ memory.size)
    (heven : addr % 4 = 0) : (memory.setCell addr value).readCell addr = .ok value := by
  rw [readCell_eq_ok ((size_setCell _ _ _).ge.trans' hrange) heven, cellAt_setCell memory addr value hrange]

/-- A cell is four bytes, the lowest first. -/
theorem toNat_cellAt {memory : Memory} {addr : Nat} (hrange : addr + 4 ≤ memory.size) :
    (memory.cellAt addr).toUInt32.toNat = ofLittleEndian (memory.bytesAt addr 4) := by
  rw [bytesAt_eq_map memory addr 4 hrange]
  exact Cell.toNat_ofBytes _ _ _ _

/-- At the address is a high cell and behind it a low cell, which make the double. -/
def HoldsDouble (memory : Memory) (address : Nat) (value : DoubleCell) : Prop :=
  ∃ high low, memory.readCell address = .ok high ∧ memory.readCell (address + 4) = .ok low ∧
    value.toInt = high.toInt * 2 ^ 32 + low.toUInt32.toNat

theorem holdsDouble_join {memory : Memory} {addr : Nat} (hrange : addr + 8 ≤ memory.size)
    (heven : addr % 4 = 0) :
    memory.HoldsDouble addr (join (memory.cellAt (addr + 4)) (memory.cellAt addr)) :=
  ⟨_, _, readCell_eq_ok (by omega) heven, readCell_eq_ok (by omega) (by omega), toInt_join _ _⟩

theorem join_setDouble {memory : Memory} {addr : Nat} (value : DoubleCell) (hrange : addr + 8 ≤ memory.size) :
    let after := (memory.setCell addr (DoubleCell.high value)).setCell (addr + 4) (DoubleCell.low value)
    join (after.cellAt (addr + 4)) (after.cellAt addr) = value := by
  intro after
  have hlow : after.cellAt (addr + 4) = DoubleCell.low value :=
    cellAt_setCell _ _ _ (by rw [size_setCell]; omega)
  have hhigh : after.cellAt addr = DoubleCell.high value :=
    (cellAt_setCell_of_apart _ _ (.inl (Nat.le_refl _))).trans (cellAt_setCell _ _ _ (by omega))
  rw [hlow, hhigh, join_low_high]

/-! ### All accesses -/

/-- Every access to memory, for all addresses and lengths. What was written is what is read back. -/
theorem accesses_exact :
    (∀ address, Reads (·.readCell address) ⟨address, address + 4⟩ (some address) fun before value =>
      value.toUInt32.toNat = ofLittleEndian (before.bytesAt address 4)) ∧
    (∀ address value, Writes (writeCell address value) [] ⟨address, address + 4⟩ (some address) fun _ after =>
      ofLittleEndian (after.bytesAt address 4) = value.toUInt32.toNat ∧ after.readCell address = .ok value) ∧
    (∀ address amount, Writes (addToCell address amount) [] ⟨address, address + 4⟩ (some address) fun before after =>
      ∃ value, before.readCell address = .ok value ∧ after.readCell address = .ok (value + amount)) ∧
    (∀ address, Reads (·.readDouble address) ⟨address, address + 8⟩ (some address) fun before value =>
      before.HoldsDouble address value) ∧
    (∀ address value, Writes (writeDouble address value) [] ⟨address, address + 8⟩ (some address) fun _ after =>
      after.HoldsDouble address value ∧ after.readDouble address = .ok value) ∧
    (∀ address, Reads (·.readByte address) ⟨address, address + 1⟩ none fun before value =>
      before.bytesAt address 1 = [value]) ∧
    (∀ address value, Writes (writeByte address value) [] ⟨address, address + 1⟩ none fun _ after =>
      after.readByte address = .ok value) ∧
    (∀ address length, Reads (·.readBytes address length) ⟨address, address + length⟩ none fun before values =>
      values = before.bytesAt address length) ∧
    (∀ address values, Writes (writeBytes address values) [] ⟨address, address + values.length⟩ none fun _ after =>
      after.readBytes address values.length = .ok values) ∧
    (∀ address length value, Writes (fill address length value) [] ⟨address, address + length⟩ none fun _ after =>
      after.readBytes address length = .ok (List.replicate length value)) ∧
    (∀ address length, Writes (erase address length) [] ⟨address, address + length⟩ none fun _ after =>
      after.readBytes address length = .ok (List.replicate length 0)) ∧
    ∀ source target length, Writes (move source target length) [⟨source, source + length⟩] ⟨target, target + length⟩ none
      fun before after => after.readBytes target length = .ok (before.bytesAt source length) := by
  have hfill (address length : Nat) (value : UInt8) :
      Writes (fill address length value) [] ⟨address, address + length⟩ none fun _ after =>
        after.readBytes address length = .ok (List.replicate length value) := by
    refine (tests_check address length).writes fun memory hin _ => ?_
    have hwrote := wrote_setBytes memory address (List.replicate length value)
    have hread := @readBytes_setBytes memory address (List.replicate length value)
    rw [List.length_replicate] at hwrote hread
    exact ⟨hwrote, hread (hin _ List.mem_cons_self)⟩
  refine ⟨fun address => ?_, fun address value => ?_, fun address amount => ?_, fun address => ?_,
    fun address value => ?_, fun address => ?_, fun address value => ?_, fun address length => ?_,
    fun address values => ?_, hfill, fun address length => hfill address length 0, fun source target length => ?_⟩
  · exact (tests_checkAligned address 4).reads fun memory hin _ => toNat_cellAt hin
  · refine (tests_checkAligned address 4).writes fun memory hin heven => ?_
    have hrange : address + 4 ≤ memory.size := hin _ List.mem_cons_self
    refine ⟨wrote_setCell memory address value, ?_, readCell_setCell value hrange (heven _ rfl)⟩
    rw [← toNat_cellAt ((size_setCell _ _ _).ge.trans' hrange), cellAt_setCell memory address value hrange]
  · refine (tests_checkAligned address 4).writes fun memory hin heven => ?_
    have hrange : address + 4 ≤ memory.size := hin _ List.mem_cons_self
    exact ⟨wrote_setCell memory address _, _, readCell_eq_ok hrange (heven _ rfl),
      readCell_setCell _ hrange (heven _ rfl)⟩
  · exact (tests_checkAligned address 8).reads fun memory hin heven => holdsDouble_join hin (heven _ rfl)
  · refine (tests_checkAligned address 8).writes fun memory hin heven => ⟨wrote_double memory address _ _, ?_⟩
    have hjoin := join_setDouble value (hin _ List.mem_cons_self)
    have hsize := (wrote_double memory address (DoubleCell.high value) (DoubleCell.low value)).same.size
    have hrange := hsize.ge.trans' (hin _ List.mem_cons_self)
    have hholds := holdsDouble_join hrange (heven _ rfl)
    rw [hjoin] at hholds
    refine ⟨hholds, ?_⟩
    rw [readDouble, checkAligned_eq_ok hrange (heven _ rfl), hjoin]
    rfl
  · refine (tests_check address 1).reads fun memory hin _ => ?_
    rw [bytesAt_eq_map memory address 1 hin]
    rfl
  · refine (tests_check address 1).writes fun memory hin _ => ⟨wrote_setBytes memory address [value], ?_⟩
    have hrange : address + 1 ≤ memory.size := hin _ List.mem_cons_self
    rw [readByte_eq_ok (by rwa [size_setByte]), byteAt_setByte memory address address value hrange, if_pos rfl]
  · exact (tests_check address length).reads fun memory _ _ => rfl
  · exact (tests_check address values.length).writes fun memory hin _ =>
      ⟨wrote_setBytes memory address values, readBytes_setBytes (hin _ List.mem_cons_self)⟩
  · refine @Tests.writes [⟨source, source + length⟩] _ _ _ (tests_move source target length) _ _ fun memory hin _ => ?_
    have hwrote := wrote_setBytes memory target (memory.bytesAt source length)
    have hread := @readBytes_setBytes memory target (memory.bytesAt source length)
    rw [length_bytesAt memory source length (hin ⟨source, _⟩ List.mem_cons_self)] at hwrote hread
    exact ⟨hwrote, hread (hin ⟨target, _⟩ (List.mem_cons_of_mem _ List.mem_cons_self))⟩

end Memory

end ThreadedForth
