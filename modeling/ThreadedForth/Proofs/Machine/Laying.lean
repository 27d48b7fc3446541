
import ThreadedForth.Proofs.Machine.Bounds

/-!
# Laying data down

Cells and bytes are laid down at the end of the code, as long as there is room for them below the names.
-/

namespace ThreadedForth

open WordM

/-- The bytes of a cell, the lowest first. -/
def Cell.bytes (value : Cell) : List UInt8 :=
  [Cell.byte value 0, Cell.byte value 1, Cell.byte value 2, Cell.byte value 3]

/-- The machine once the bytes were laid down. -/
def Machine.laid (m : Machine) (bytes : List UInt8) : Machine :=
  { m with
    dictionary := { m.dictionary with here := m.dictionary.here + bytes.length }
    memory := m.memory.setBytes m.dictionary.here bytes }

theorem Memory.setBytes_append (memory : Memory) (addr : Nat) (bytes more : List UInt8) :
    memory.setBytes addr (bytes ++ more) = (memory.setBytes addr bytes).setBytes (addr + bytes.length) more := by
  induction bytes generalizing memory addr with
  | nil => rfl
  | cons byte bytes ih =>
    rw [List.cons_append, setBytes, setBytes, ih, List.length_cons, Nat.add_assoc, Nat.add_comm 1]

namespace Machine

variable {m : Machine} {bytes : List UInt8}

theorem laid_nil (m : Machine) : m.laid [] = m := rfl

theorem laid_append (m : Machine) (bytes more : List UInt8) : m.laid (bytes ++ more) = (m.laid bytes).laid more := by
  rw [laid, laid, laid, Memory.setBytes_append, List.length_append, Nat.add_assoc]

theorem sameOutside_laid (m : Machine) (bytes : List UInt8) :
    Memory.SameOutside (Region.mk m.dictionary.here (m.dictionary.here + bytes.length)).Holds
      m.memory (m.laid bytes).memory :=
  Memory.sameOutside_setBytes _ _ _

theorem Bounded.laid (hb : m.Bounded)
    (hroom : m.dictionary.here + bytes.length ≤ m.dictionary.names) : (m.laid bytes).Bounded := by
  have hfits := hb.dictionary
  refine (hb.withMemory (Memory.size_setBytes _ _ _)).withDictionary
    ⟨hfits.start_eq, Nat.le_trans hfits.start_le (Nat.le_add_right _ _), hroom, hfits.names_le⟩

theorem cellAt_laid {addr : Nat} (haddr : addr + 4 ≤ m.dictionary.here) :
    (m.laid bytes).memory.cellAt addr = m.memory.cellAt addr :=
  (m.sameOutside_laid bytes).cellAt fun other _ hother hin => by
    rw [Region.holds_mk] at hin
    omega

end Machine

section Comma

variable {m : Machine}

/-- A cell is laid down if there is room for it, on a cell boundary. -/
theorem comma_eq (hb : m.Bounded) (value : Cell) :
    comma value m =
      if m.dictionary.names < m.dictionary.here + 4 then .error .dictionaryOverflow m
      else if m.dictionary.here % 4 ≠ 0 then
        .error (.misalignedAddress (signedAddress m.dictionary.here)) m
      else .ok () (m.laid (Cell.bytes value)) := by
  have hnames := hb.dictionary.names_le
  have hsize := hb.size_eq
  have horder := Layout.order
  rw [comma, onDictionary]
  by_cases hfull : m.dictionary.names < m.dictionary.here + 4
  · rw [if_pos hfull, Dictionary.comma, if_pos hfull]
    rfl
  rw [if_neg hfull]
  by_cases halign : m.dictionary.here % 4 = 0
  · rw [if_neg (not_not_intro halign), bind_of_ok (Dictionary.comma_of_room value (by omega) (by omega) halign)]
    rw [Memory.setCell_eq_setBytes]
    rfl
  · have hcheck : m.memory.checkAligned m.dictionary.here 4 =
        .error (.misalignedAddress (signedAddress m.dictionary.here)) := by
      rw [Memory.checkAligned, Memory.check_eq_ok (by omega)]
      exact if_pos halign
    have hwrite : Memory.writeCell m.dictionary.here value m.memory =
        .error (.misalignedAddress (signedAddress m.dictionary.here)) m.memory := by
      rw [Memory.writeCell, Memory.guarded, hcheck]
    rw [if_pos halign, Dictionary.comma, if_neg hfull, bind_of_error (bind_of_error hwrite)]

theorem commaByte_eq (hb : m.Bounded) (value : UInt8) :
    commaByte value m =
      if m.dictionary.names < m.dictionary.here + 1 then .error .dictionaryOverflow m
      else .ok () (m.laid [value]) := by
  have hnames := hb.dictionary.names_le
  have hsize := hb.size_eq
  have horder := Layout.order
  rw [commaByte, onDictionary]
  by_cases hfull : m.dictionary.names < m.dictionary.here + 1
  · rw [if_pos hfull, Dictionary.commaByte, if_pos hfull]
    rfl
  · have hbyte : m.dictionary.commaByte value m.memory =
        .ok { m.dictionary with here := m.dictionary.here + 1 }
          (m.memory.setByte m.dictionary.here value) := by
      rw [Dictionary.commaByte, if_neg hfull]
      exact bind_of_ok (Memory.writeByte_eq_ok value (by omega))
    rw [if_neg hfull, bind_of_ok hbyte]
    rfl

theorem commaBytes_eq_ok_iff {bytes : List UInt8} {after : Machine} (hb : m.Bounded) :
    bytes.forM commaByte m = .ok () after ↔
      m.dictionary.here + bytes.length ≤ m.dictionary.names ∧ after = m.laid bytes := by
  induction bytes generalizing m with
  | nil =>
    refine ⟨fun hdone => ⟨hb.dictionary.here_le, ?_⟩, ?_⟩
    · exact (EStateM.Result.ok.inj hdone).2.symm
    · rintro ⟨-, rfl⟩
      rfl
  | cons byte rest ih =>
    change (do commaByte byte; rest.forM commaByte : WordM Unit) m = _ ↔ _
    rw [List.length_cons, show byte :: rest = [byte] ++ rest from rfl, Machine.laid_append]
    have hbyte := commaByte_eq hb byte
    by_cases hfull : m.dictionary.names < m.dictionary.here + 1
    · rw [if_pos hfull] at hbyte
      rw [bind_of_error hbyte]
      exact ⟨nofun, fun hroom => absurd hroom.1 (by omega)⟩
    · rw [if_neg hfull] at hbyte
      have hlaid : (m.laid [byte]).Bounded := hb.laid (Nat.le_of_not_lt hfull)
      rw [bind_of_ok hbyte, ih hlaid, Nat.add_comm rest.length, ← Nat.add_assoc]
      rfl

end Comma

end ThreadedForth
