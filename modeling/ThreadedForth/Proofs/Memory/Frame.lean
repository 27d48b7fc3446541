import Mathlib.Algebra.Order.Ring.Int
import ThreadedForth.Memory

/-!
# What a write leaves alone

Everything the proofs know about bytes and cells in memory. A cell that was stored reads back, and a
write changes nothing outside its own range. What a longer computation leaves alone is said by
`SameOutside`: the two memories have one size and may differ only at addresses of a given area.
Whoever needs more than one write composes these facts and never unfolds a write to its bytes.
-/

namespace ThreadedForth

/-! ### Cells as numbers -/

namespace Cell

theorem ofBytes_byte (value : Cell) : ofBytes (byte value 0) (byte value 1) (byte value 2) (byte value 3) = value := by
  apply Int32.toBitVec_inj.1
  apply BitVec.eq_of_getLsbD_eq
  intro i hi
  simp only [ofBytes, byte, UInt32.toBitVec_toInt32, UInt32.toBitVec_or, UInt8.toBitVec_toUInt32,
    UInt32.toBitVec_shiftLeft, UInt32.toBitVec_toUInt8, UInt32.toBitVec_shiftRight,
    BitVec.getLsbD_or, BitVec.getLsbD_setWidth, Int32.toBitVec_toUInt32, UInt32.mul_zero,
    UInt32.toBitVec_ofNat, BitVec.ofNat_eq_ofNat, BitVec.zero_umod, BitVec.ushiftRight_eq',
    BitVec.toNat_ofNat, Nat.reducePow, Nat.zero_mod, BitVec.ushiftRight_zero, UInt32.mul_one,
    BitVec.reduceMod, Nat.reduceMod, BitVec.shiftLeft_eq', BitVec.getLsbD_shiftLeft,
    BitVec.getLsbD_ushiftRight, UInt32.reduceMul]
  grind

variable {n : Nat}

theorem toInt_ofNat (hn : n < 2 ^ 31) : (ofNat n).toInt = n :=
  Int32.toInt_ofNat_of_lt hn

theorem toNatClampNeg_ofNat (hn : n < 2 ^ 31) : (ofNat n).toNatClampNeg = n := by
  simp [Int32.toNatClampNeg, toInt_ofNat hn]

theorem ofNat_not_neg (hn : n < 2 ^ 31) : ¬ ofNat n < 0 := by
  rw [Int32.lt_iff_toInt_lt, toInt_ofNat hn]
  simp

theorem toAddress_ofNat (hn : n < 2 ^ 31) : (ofNat n).toAddress = n := by
  rw [toAddress, if_neg (ofNat_not_neg hn), toNatClampNeg_ofNat hn]

theorem ofNat_toAddress {value : Cell} (hvalue : value.toAddress < 2 ^ 31) : ofNat value.toAddress = value := by
  apply Int32.toInt_inj.1
  rw [toInt_ofNat hvalue]
  have hlow := value.le_toInt
  unfold toAddress at hvalue ⊢
  split at hvalue
  · omega
  · next hneg =>
    rw [Int32.lt_iff_toInt_lt, Int32.toInt_zero] at hneg
    rw [if_neg (by rwa [Int32.lt_iff_toInt_lt, Int32.toInt_zero]), Int32.toNatClampNeg]
    omega

theorem toInt_ofNat_sub_ofNat {k : Nat} (hn : n < 2 ^ 31) (hk : k < 2 ^ 31) :
    (ofNat n - ofNat k).toInt = (n : Int) - k := by
  rw [Int32.toInt_sub, toInt_ofNat hn, toInt_ofNat hk, Int.bmod_eq_of_le] <;> omega

end Cell

theorem DoubleCell.join_low_high (value : DoubleCell) : join (low value) (high value) = value := by
  apply Int64.toBitVec_inj.1
  apply BitVec.eq_of_getLsbD_eq
  intro i hi
  simp only [join, high, low, Int64.toBitVec_or, Int64.toBitVec_shiftLeft, Int32.toBitVec_toInt64,
    Int64.toBitVec_toInt32, Int64.toBitVec_shiftRight, Int64.toBitVec_ofNat, BitVec.ofNat_eq_ofNat,
    BitVec.reduceSMod, BitVec.sshiftRight_eq', BitVec.toNat_ofNat, Nat.reducePow, Nat.reduceMod,
    BitVec.shiftLeft_eq', UInt64.toBitVec_toInt64, UInt32.toBitVec_toUInt64, Int32.toBitVec_toUInt32,
    BitVec.getLsbD_or, BitVec.getLsbD_shiftLeft, BitVec.getLsbD_signExtend, BitVec.getLsbD_sshiftRight,
    BitVec.msb_sshiftRight, BitVec.getLsbD_setWidth]
  grind

theorem le_aligned (addr : Nat) : addr ≤ aligned addr := by
  unfold aligned
  omega

theorem aligned_lt (addr : Nat) : aligned addr < addr + 4 := by
  unfold aligned
  omega

theorem aligned_mod (addr : Nat) : aligned addr % 4 = 0 := by
  unfold aligned
  omega

theorem aligned_eq_self {addr : Nat} (haddr : addr % 4 = 0) : aligned addr = addr := by
  unfold aligned
  omega

/-! ### Regions -/

/-- The addresses from `start` on, up to but not at `finish`. -/
structure Region where
  start : Nat
  finish : Nat
  deriving DecidableEq, Repr

namespace Region

/-- The address lies in the region. -/
def Holds (region : Region) (address : Nat) : Prop :=
  region.start ≤ address ∧ address < region.finish

@[simp] theorem holds_mk (start finish addr : Nat) :
    (Region.mk start finish).Holds addr ↔ start ≤ addr ∧ addr < finish :=
  Iff.rfl

/-- The regions share no address, because one of them ends before the other starts. -/
def Apart (region other : Region) : Prop :=
  region.finish ≤ other.start ∨ other.finish ≤ region.start

instance (region other : Region) : Decidable (region.Apart other) :=
  inferInstanceAs (Decidable (_ ∨ _))

end Region

namespace Memory

/-! ### Frames -/

/-- The memories have one size and the same bytes at every address outside the area. -/
structure SameOutside (area : Nat → Prop) (before after : Memory) : Prop where
  size : after.size = before.size
  byteAt : ∀ address, ¬ area address → after.byteAt address = before.byteAt address

namespace SameOutside

variable {area wider : Nat → Prop} {before middle after : Memory}

theorem refl (area : Nat → Prop) (memory : Memory) : SameOutside area memory memory :=
  ⟨rfl, fun _ _ => rfl⟩

theorem trans (hfst : SameOutside area before middle) (hsnd : SameOutside area middle after) :
    SameOutside area before after :=
  ⟨hsnd.size.trans hfst.size,
    fun addr hout => (hsnd.byteAt addr hout).trans (hfst.byteAt addr hout)⟩

theorem mono (hsame : SameOutside area before after) (hwider : ∀ addr, area addr → wider addr) :
    SameOutside wider before after :=
  ⟨hsame.size, fun addr hout => hsame.byteAt addr fun harea => hout (hwider addr harea)⟩

theorem cellAt (hsame : SameOutside area before after) {addr : Nat}
    (hout : ∀ other, addr ≤ other → other < addr + 4 → ¬ area other) :
    after.cellAt addr = before.cellAt addr := by
  unfold Memory.cellAt
  rw [hsame.byteAt addr (hout _ (by omega) (by omega)),
    hsame.byteAt (addr + 1) (hout _ (by omega) (by omega)),
    hsame.byteAt (addr + 2) (hout _ (by omega) (by omega)),
    hsame.byteAt (addr + 3) (hout _ (by omega) (by omega))]

section

variable (hsame : SameOutside area before after)

include hsame

theorem check (addr length : Nat) : before.check addr length = after.check addr length := by
  rw [Memory.check, Memory.check, hsame.size]

theorem checkAligned (addr length : Nat) :
    before.checkAligned addr length = after.checkAligned addr length := by
  rw [Memory.checkAligned, Memory.checkAligned, hsame.check]

theorem readCell {addr : Nat} (hout : ∀ other, addr ≤ other → other < addr + 4 → ¬ area other) :
    before.readCell addr = after.readCell addr := by
  rw [Memory.readCell, Memory.readCell, hsame.checkAligned, hsame.cellAt hout]

end

end SameOutside

variable {addr other length : Nat} {memory : Memory} {answer : Unit}

theorem byteAt_setByte_of_ne (memory : Memory) (value : UInt8)
    (hother : other ≠ addr) : (memory.setByte addr value).byteAt other = memory.byteAt other := by
  have hne : ¬ addr = other := fun heq => hother heq.symm
  simp [byteAt, setByte, hne]

theorem sameOutside_setByte (memory : Memory) (addr : Nat) (value : UInt8) :
    SameOutside (Region.mk addr (addr + 1)).Holds memory (memory.setByte addr value) := by
  refine ⟨size_setByte memory addr value, fun other hout => byteAt_setByte_of_ne memory value ?_⟩
  rintro rfl
  exact hout ⟨Nat.le_refl _, Nat.lt_succ_self _⟩

theorem sameOutside_setBytes (memory : Memory) (addr : Nat) (values : List UInt8) :
    SameOutside (Region.mk addr (addr + values.length)).Holds memory
      (memory.setBytes addr values) := by
  induction values generalizing memory addr with
  | nil => exact SameOutside.refl _ memory
  | cons value rest ih =>
    rw [setBytes, List.length_cons]
    have hfst := sameOutside_setByte memory addr value
    have hrest := ih (memory.setByte addr value) (addr + 1)
    refine (hfst.mono fun other hother => ?_).trans (hrest.mono fun other hother => ?_)
    · rw [Region.holds_mk] at hother ⊢
      omega
    · rw [Region.holds_mk] at hother ⊢
      omega

theorem setCell_eq_setBytes (memory : Memory) (addr : Nat) (value : Cell) :
    memory.setCell addr value = memory.setBytes addr
      [Cell.byte value 0, Cell.byte value 1, Cell.byte value 2, Cell.byte value 3] :=
  rfl

theorem sameOutside_setCell (memory : Memory) (addr : Nat) (value : Cell) :
    SameOutside (Region.mk addr (addr + 4)).Holds memory (memory.setCell addr value) :=
  sameOutside_setBytes memory addr
    [Cell.byte value 0, Cell.byte value 1, Cell.byte value 2, Cell.byte value 3]

theorem cellAt_setCell_of_apart (memory : Memory) (value : Cell) (happart : other + 4 ≤ addr ∨ addr + 4 ≤ other) :
    (memory.setCell addr value).cellAt other = memory.cellAt other := by
  apply (sameOutside_setCell memory addr value).cellAt
  intro inner hlow hhigh hinner
  rw [Region.holds_mk] at hinner
  omega

/-! ### Reading back -/

theorem byteAt_setBytes (memory : Memory) (addr : Nat) (values : List UInt8) (index : Nat)
    (hrange : addr + values.length ≤ memory.size) (hindex : index < values.length) :
    (memory.setBytes addr values).byteAt (addr + index) = values[index] := by
  induction values generalizing memory addr index with
  | nil => simp at hindex
  | cons value rest ih =>
    rw [List.length_cons] at hrange hindex
    rw [setBytes]
    cases index with
    | zero =>
      -- The rest is stored above this byte.
      have hrest := sameOutside_setBytes (memory.setByte addr value) (addr + 1) rest
      have hbelow : ¬ (Region.mk (addr + 1) (addr + 1 + rest.length)).Holds addr := by
        rw [Region.holds_mk]
        omega
      change ((memory.setByte addr value).setBytes (addr + 1) rest).byteAt addr = value
      rw [hrest.byteAt addr hbelow, byteAt_setByte memory addr addr value (by omega),
        if_pos rfl]
    | succ index =>
      have hinner := ih (memory.setByte addr value) (addr + 1) index
        (by rw [size_setByte]; omega) (by omega)
      rw [show addr + (index + 1) = addr + 1 + index by omega, hinner]
      rfl

theorem cellAt_setCell (memory : Memory) (addr : Nat) (value : Cell)
    (hrange : addr + 4 ≤ memory.size) : (memory.setCell addr value).cellAt addr = value := by
  have hbyte := fun index hindex => byteAt_setBytes memory addr
    [Cell.byte value 0, Cell.byte value 1, Cell.byte value 2, Cell.byte value 3] index hrange hindex
  have h0 := hbyte 0 (Nat.lt_of_sub_eq_succ rfl)
  have h1 := hbyte 1 (Nat.lt_of_sub_eq_succ rfl)
  have h2 := hbyte 2 (Nat.lt_of_sub_eq_succ rfl)
  have h3 := hbyte 3 (Nat.lt_of_sub_eq_succ rfl)
  rw [Nat.add_zero] at h0
  rw [setCell_eq_setBytes, cellAt, h0, h1, h2, h3]
  exact Cell.ofBytes_byte value

theorem bytesAt_eq_map (memory : Memory) (addr length : Nat)
    (hrange : addr + length ≤ memory.size) :
    memory.bytesAt addr length =
      (List.range length).map fun index => memory.byteAt (addr + index) := by
  induction length generalizing addr with
  | zero => simp [bytesAt]
  | succ length ih =>
    rw [bytesAt_succ memory addr length (by omega), ih (addr + 1) (by omega),
      List.range_succ_eq_map, List.map_cons, List.map_map, Nat.add_zero]
    congr 1
    apply List.map_congr_left
    intro index _
    congr 1
    omega

theorem length_bytesAt (memory : Memory) (addr length : Nat)
    (hrange : addr + length ≤ memory.size) : (memory.bytesAt addr length).length = length := by
  rw [bytesAt_eq_map memory addr length hrange, List.length_map, List.length_range]

theorem cellAt_of_bytesAt {lowest second third highest : UInt8}
    (hrange : addr + 4 ≤ memory.size) (hbytes : memory.bytesAt addr 4 = [lowest, second, third, highest]) :
    memory.cellAt addr = Cell.ofBytes lowest second third highest := by
  rw [bytesAt_eq_map memory addr 4 hrange] at hbytes
  obtain ⟨rfl, rfl, rfl, rfl⟩ : memory.byteAt addr = lowest ∧ memory.byteAt (addr + 1) = second ∧
      memory.byteAt (addr + 2) = third ∧ memory.byteAt (addr + 3) = highest := by
    simpa [List.range_succ] using hbytes
  rfl

theorem SameOutside.bytesAt {area : Nat → Prop} {before after : Memory} (hsame : SameOutside area before after)
    (hrange : addr + length ≤ before.size)
    (hout : ∀ other, addr ≤ other → other < addr + length → ¬ area other) :
    after.bytesAt addr length = before.bytesAt addr length := by
  rw [bytesAt_eq_map before addr length hrange,
    bytesAt_eq_map after addr length (by rw [hsame.size]; exact hrange)]
  apply List.map_congr_left
  intro index hindex
  rw [List.mem_range] at hindex
  exact hsame.byteAt _ (hout _ (by omega) (by omega))

theorem bytesAt_setBytes (memory : Memory) (addr : Nat) (values : List UInt8)
    (hrange : addr + values.length ≤ memory.size) :
    (memory.setBytes addr values).bytesAt addr values.length = values := by
  rw [bytesAt_eq_map _ addr values.length (by rw [size_setBytes]; exact hrange)]
  apply List.ext_getElem
  · rw [List.length_map, List.length_range]
  · intro index _ hindex
    rw [List.getElem_map, List.getElem_range]
    exact byteAt_setBytes memory addr values index hrange hindex

/-! ### Checked access -/

theorem check_eq_ok (hrange : addr + length ≤ memory.size) : memory.check addr length = .ok () := by
  rw [check, if_pos hrange]

theorem checkAligned_eq_ok (hrange : addr + length ≤ memory.size) (halign : addr % 4 = 0) :
    memory.checkAligned addr length = .ok () := by
  rw [checkAligned, check_eq_ok hrange]
  simp only [bind, Except.bind, halign, ne_eq, not_true_eq_false, if_false]
  rfl

theorem of_check_eq_ok (hcheck : memory.check addr length = .ok answer) : addr + length ≤ memory.size := by
  rw [check] at hcheck
  split at hcheck
  · assumption
  · cases hcheck

theorem of_checkAligned_eq_ok (hcheck : memory.checkAligned addr length = .ok answer) :
    addr + length ≤ memory.size ∧ addr % 4 = 0 := by
  rw [checkAligned] at hcheck
  cases hrange : memory.check addr length with
  | error fault =>
    rw [hrange] at hcheck
    cases hcheck
  | ok passed =>
    refine ⟨of_check_eq_ok hrange, ?_⟩
    rw [hrange] at hcheck
    split at hcheck
    · cases hcheck
    · omega

theorem readCell_eq_ok {memory : Memory} {addr : Nat} (hrange : addr + 4 ≤ memory.size)
    (halign : addr % 4 = 0) : memory.readCell addr = .ok (memory.cellAt addr) := by
  rw [readCell, checkAligned_eq_ok hrange halign]
  rfl

theorem of_readCell_eq_ok {value : Cell} (hread : memory.readCell addr = .ok value) :
    addr + 4 ≤ memory.size ∧ addr % 4 = 0 ∧ memory.cellAt addr = value := by
  rw [readCell] at hread
  cases hcheck : memory.checkAligned addr 4 with
  | error fault =>
    rw [hcheck] at hread
    cases hread
  | ok passed =>
    rw [hcheck] at hread
    obtain ⟨hrange, halign⟩ := of_checkAligned_eq_ok hcheck
    exact ⟨hrange, halign, Except.ok.inj hread⟩

theorem readByte_eq_ok (hrange : addr + 1 ≤ memory.size) :
    memory.readByte addr = .ok (memory.byteAt addr) := by
  rw [readByte, check_eq_ok hrange]
  rfl

theorem readBytes_eq_ok (hrange : addr + length ≤ memory.size) :
    memory.readBytes addr length = .ok (memory.bytesAt addr length) := by
  rw [readBytes, check_eq_ok hrange]
  rfl

theorem writeCell_eq_ok (value : Cell) (hrange : addr + 4 ≤ memory.size) (halign : addr % 4 = 0) :
    writeCell addr value memory = .ok () (memory.setCell addr value) := by
  rw [writeCell, guarded, checkAligned_eq_ok hrange halign]

theorem writeByte_eq_ok (value : UInt8) (hrange : addr + 1 ≤ memory.size) :
    writeByte addr value memory = .ok () (memory.setByte addr value) := by
  rw [writeByte, guarded, check_eq_ok hrange]

theorem writeBytes_eq_ok (values : List UInt8) (hrange : addr + values.length ≤ memory.size) :
    writeBytes addr values memory = .ok () (memory.setBytes addr values) := by
  rw [writeBytes, guarded, check_eq_ok hrange]

theorem guarded_cases (test : Memory → Except Fault Unit) (change : Memory → Memory) (memory : Memory) :
    (test memory = .ok () ∧ guarded test change memory = .ok () (change memory)) ∨
      ∃ fault, test memory = .error fault ∧ guarded test change memory = .error fault memory := by
  rw [guarded]
  cases htest : test memory with
  | ok passed => exact .inl ⟨rfl, rfl⟩
  | error fault => exact .inr ⟨fault, rfl, rfl⟩

end Memory

end ThreadedForth
