
import ThreadedForth.Proofs.Interpreter.Token
import ThreadedForth.Proofs.Text.Runs

/-!
# Reading the source

The source is read from the offset in `>IN` on, wherever in memory it lies; all that is asked of it is that it does
not run into that cell. `Reading` says what is left of the line that is being interpreted. The outer interpreter takes
its words one after the other, and a word that parses takes more of it.
-/

namespace ThreadedForth

open Layout Utf8 List Memory Region Text

variable {addr count length : Nat}

theorem Memory.bytesAt_drop (memory : Memory) (hrange : addr + length ≤ memory.size) (hcount : count ≤ length) :
    memory.bytesAt (addr + count) (length - count) = (memory.bytesAt addr length).drop count := by
  rw [bytesAt_eq_map memory _ _ (by omega), bytesAt_eq_map memory _ _ hrange, ← map_drop]
  refine ext_getElem (by simp) fun place hleft hright => ?_
  simp [Nat.add_assoc]

theorem Memory.bytesAt_take (memory : Memory) (hrange : addr + length ≤ memory.size) (hcount : count ≤ length) :
    memory.bytesAt addr count = (memory.bytesAt addr length).take count := by
  rw [bytesAt_eq_map memory _ _ (by omega), bytesAt_eq_map memory _ _ hrange, ← map_take]
  refine ext_getElem (by simp; omega) fun place hleft hright => ?_
  simp

/-- The machine once the source was read up to an offset. -/
abbrev Machine.readTo (m : Machine) (toIn : Cell) : Machine :=
  { m with memory := m.memory.setCell Layout.toIn toIn }

/-- The bytes of the source. -/
def Machine.sourceBytes (m : Machine) : List UInt8 :=
  m.memory.bytesAt m.source.address m.source.length

/-- Where the source is read on: the offset in `>IN`, brought between zero and the length of the source. -/
def Machine.offset (m : Machine) : Nat :=
  min (m.memory.cellAt Layout.toIn).toNatClampNeg m.source.length

/-- What is left of the source. -/
def Machine.unread (m : Machine) : List UInt8 := m.sourceBytes.drop m.offset

/-- The source lies in memory, and no byte of it belongs to the cell that says how far it was read. -/
structure Machine.Legible (m : Machine) : Prop where
  size : m.memory.size = memorySize
  inside : m.source.address + m.source.length ≤ m.memory.size
  apart : ∀ address, (Region.mk m.source.address (m.source.address + m.source.length)).Holds address →
    ¬ (Region.mk Layout.toIn pointCount).Holds address

namespace Machine

variable {m : Machine}

theorem offset_le (m : Machine) : m.offset ≤ m.source.length := Nat.min_le_right _ _

theorem offset_eq {place : Nat} (htoIn : m.memory.cellAt Layout.toIn = Cell.ofNat place)
    (hplace : place ≤ m.source.length) (hsmall : m.source.length < 2 ^ 31) : m.offset = place := by
  rw [offset, htoIn, Cell.toNatClampNeg_ofNat (by omega), Nat.min_eq_left hplace]

theorem length_sourceBytes (hins : m.source.address + m.source.length ≤ m.memory.size) :
    m.sourceBytes.length = m.source.length :=
  length_bytesAt _ _ _ hins

theorem bytesAt_source {offset length : Nat} (hins : m.source.address + m.source.length ≤ m.memory.size)
    (hlen : offset + length ≤ m.source.length) :
    m.memory.bytesAt (m.source.address + offset) length =
      slice m.sourceBytes (offset, length) := by
  rw [slice, sourceBytes, ← bytesAt_drop _ hins (by omega)]
  exact bytesAt_take _ (by omega) (by omega)

namespace Legible

section

variable (hleg : m.Legible)

include hleg

theorem length_lt : m.source.length < 2 ^ 31 := by
  have hsize := hleg.size
  have hins := hleg.inside
  have horder := Layout.order
  omega

theorem length_unread : m.unread.length = m.source.length - m.offset := by
  rw [unread, List.length_drop, length_sourceBytes hleg.inside]

theorem readTo (toIn : Cell) : (m.readTo toIn).Legible :=
  ⟨(Memory.size_setCell ..).trans hleg.size, (Memory.size_setCell ..).symm ▸ hleg.inside, hleg.apart⟩

theorem sourceBytes_readTo (toIn : Cell) : (m.readTo toIn).sourceBytes = m.sourceBytes :=
  (sameOutside_setCell m.memory Layout.toIn toIn).bytesAt hleg.inside fun addr hlow hhigh =>
    hleg.apart addr ⟨hlow, hhigh⟩

theorem bytesAt_readTo (toIn : Cell) {addr length : Nat} (hlow : m.source.address ≤ addr)
    (hhigh : addr + length ≤ m.source.address + m.source.length) :
    (m.readTo toIn).memory.bytesAt addr length = m.memory.bytesAt addr length := by
  have hins := hleg.inside
  refine (Memory.sameOutside_setCell m.memory Layout.toIn toIn).bytesAt (by omega) fun other hfst hlast => ?_
  exact hleg.apart other ((Region.holds_mk _ _ _).2 (by omega))

theorem cellAt_readTo (toIn : Cell) : (m.readTo toIn).memory.cellAt Layout.toIn = toIn :=
  Memory.cellAt_setCell _ _ _ (by rw [hleg.size]; decide)

end

variable {place : Nat}

theorem offset_readTo (hleg : m.Legible) (hplace : place ≤ m.source.length) :
    (m.readTo (Cell.ofNat place)).offset = place :=
  offset_eq (hleg.cellAt_readTo _) hplace hleg.length_lt

theorem unread_readTo (hleg : m.Legible) (hplace : place ≤ m.source.length) :
    (m.readTo (Cell.ofNat place)).unread = m.sourceBytes.drop place := by
  rw [unread, hleg.offset_readTo hplace, hleg.sourceBytes_readTo]

theorem unread_advance (hleg : m.Legible) (count : Nat) :
    (m.readTo (Cell.ofNat (min (m.offset + count) m.source.length))).unread =
      m.unread.drop count := by
  have hlen := m.length_sourceBytes hleg.inside
  rw [hleg.unread_readTo (Nat.min_le_right _ _), unread, List.drop_drop]
  by_cases hshort : m.offset + count ≤ m.source.length
  · rw [Nat.min_eq_left hshort]
  · rw [Nat.min_eq_right (by omega), drop_eq_nil_of_le (by omega), drop_eq_nil_of_le (by omega)]

end Legible

/-- How far the source is read once the next word was taken. -/
def afterWord (m : Machine) : Machine :=
  m.readTo (Cell.ofNat (min (m.offset + (skipped m.unread +
    ((nextWord m.unread).length + 1))) m.source.length))

theorem Legible.words_afterWord (hleg : m.Legible) : Text.words m.afterWord.unread = (Text.words m.unread).tail := by
  rw [afterWord, hleg.unread_advance, ← Text.afterWord_eq_drop, Text.words_afterWord]

end Machine

namespace WordM

variable {m : Machine}

theorem writeToIn_eq (hsize : m.memory.size = memorySize) (toIn : Cell) :
    writeCell Layout.toIn toIn m = .ok () (m.readTo toIn) := by
  rw [writeCell, onMemory, writeCell_eq_ok _ (by rw [hsize]; decide) (by decide)]

theorem parseOffset_eq (hsize : m.memory.size = memorySize) : parseOffset m = .ok m.offset m := by
  refine ask_of_ok ?_
  rw [readCell_eq_ok (by rw [hsize]; decide) (by decide)]
  rfl

variable {offset : Nat}

theorem endOfRun_eq (test : UInt8 → Bool) (hins : m.source.address + m.source.length ≤ m.memory.size)
    (hoff : offset ≤ m.source.length) :
    endOfRun test offset m =
      .ok (offset + ((m.sourceBytes.drop offset).takeWhile test).length) m := by
  refine ask_of_ok ?_
  simp only [Memory.check_eq_ok hins]
  change Except.ok (Memory.endOfRun _ _ _ _ - _) = _
  rw [Memory.endOfRun_eq _ _ _ _ (by omega), Memory.bytesAt_drop _ hins hoff, Nat.add_assoc,
    Nat.add_sub_cancel_left]
  rfl

theorem advance_eq {length : Nat} (hsize : m.memory.size = memorySize) :
    advance offset length m = .ok ⟨m.source.address + offset, length⟩
      (m.readTo (Cell.ofNat (min (offset + (length + 1)) m.source.length))) :=
  bind_of_ok (writeToIn_eq hsize _)

theorem parseName_eq (hleg : m.Legible) :
    parseName m =
      .ok ⟨m.source.address + (m.offset + Text.skipped m.unread), (Text.nextWord m.unread).length⟩
        (m.readTo (Cell.ofNat (min (m.offset + Text.skipped m.unread +
          ((Text.nextWord m.unread).length + 1)) m.source.length))) := by
  have hunread := hleg.length_unread
  have hwithin := Text.skipped_add_length_le m.unread
  have hoff := m.offset_le
  have hfst : endOfRun Blank.isBlankByte m.offset m =
      .ok (m.offset + skipped m.unread) m :=
    endOfRun_eq Blank.isBlankByte hleg.inside hoff
  have hsnd := endOfRun_eq (!Blank.isBlankByte ·) hleg.inside
    (show m.offset + skipped m.unread ≤ m.source.length by omega)
  have hrest : m.sourceBytes.drop (m.offset + skipped m.unread) =
      m.unread.dropWhile Blank.isBlankByte := by
    rw [← drop_drop, ← drop_skipped]
    rfl
  rw [hrest] at hsnd
  refine (bind_of_ok (parseOffset_eq hleg.size)).trans ?_
  refine (bind_of_ok hfst).trans ((bind_of_ok hsnd).trans ?_)
  rw [Nat.add_sub_cancel_left]
  exact advance_eq hleg.size

theorem parse_eq (delimiter : UInt8) (hleg : m.Legible) :
    parse delimiter m =
      .ok ⟨m.source.address + m.offset, (m.unread.takeWhile (· != delimiter)).length⟩
        (m.readTo (Cell.ofNat (min (m.offset +
          ((m.unread.takeWhile (· != delimiter)).length + 1)) m.source.length))) := by
  refine (bind_of_ok (parseOffset_eq hleg.size)).trans ?_
  refine (bind_of_ok (endOfRun_eq (· != delimiter) hleg.inside m.offset_le)).trans ?_
  rw [Nat.add_sub_cancel_left]
  exact advance_eq hleg.size

theorem bytesAt_parseName (hleg : m.Legible) :
    m.memory.bytesAt (m.source.address + (m.offset + Text.skipped m.unread))
      (Text.nextWord m.unread).length = Text.nextWord m.unread := by
  have hunread := hleg.length_unread
  have hoff := m.offset_le
  have hwithin := Text.skipped_add_length_le m.unread
  rw [Machine.bytesAt_source hleg.inside (by omega)]
  refine Eq.trans ?_ (slice_nextWord m.unread)
  rw [slice, slice, ← drop_drop]
  rfl

theorem nextToken?_eq (hleg : m.Legible) :
    nextToken? m = .ok ((Text.words m.unread)[0]?.map Utf8.decodeLossy) m.afterWord := by
  have hoff := m.offset_le
  have hunread := hleg.length_unread
  have hwithin := Text.skipped_add_length_le m.unread
  rw [Machine.afterWord, ← Nat.add_assoc m.offset]
  refine (bind_of_ok (parseName_eq hleg)).trans ?_
  rw [words_head?]
  by_cases hword : nextWord m.unread = []
  · rw [if_pos hword, if_pos (by rw [hword]; rfl)]
    rfl
  · rw [if_neg hword, if_neg (by simpa using hword)]
    refine bind_of_ok (ask_of_ok ?_)
    have hins := hleg.inside
    rw [Memory.readText, Memory.readBytes_eq_ok (by rw [Memory.size_setCell]; simp only; omega),
      hleg.bytesAt_readTo _ (Nat.le_add_right _ _) (by simp only; omega), bytesAt_parseName hleg]
    rfl

theorem requireName_eq {name : String} {rest : List (List UInt8)} (hleg : m.Legible)
    (hwords : Text.words m.unread = encode name :: rest) : requireName m = .ok name m.afterWord := by
  have hnext := nextToken?_eq hleg
  rw [hwords, List.getElem?_cons_zero, Option.map_some, Utf8.decodeLossy_encode] at hnext
  exact bind_of_ok hnext

end WordM

/-- The bytes that the line in the input buffer is read from, and the cell with how far it was read. -/
def SourceArea (address : Nat) : Prop :=
  (mk Layout.toIn pointCount).Holds address ∨ (mk inputBuffer pad).Holds address

/-- The bytes are what is left of the line in the input buffer. -/
structure Reading (bytes : List UInt8) (m : Machine) : Prop where
  low : inputBuffer ≤ m.source.address
  high : m.source.address + m.source.length ≤ pad
  left : ∃ offset ≤ m.source.length, m.memory.cellAt Layout.toIn = Cell.ofNat offset ∧
    m.memory.bytesAt (m.source.address + offset) (m.source.length - offset) = bytes

namespace Reading

variable {bytes : List UInt8} {m after : Machine}

theorem unique {others : List UInt8} (hrd : Reading bytes m) (hothers : Reading others m) : bytes = others := by
  obtain ⟨offset, hoff, htoIn, rfl⟩ := hrd.left
  obtain ⟨place, hplace, hsame, rfl⟩ := hothers.left
  have hhigh := hrd.high
  have horder := order
  have hequal := congrArg Int32.toNatClampNeg (htoIn.symm.trans hsame)
  rw [Cell.toNatClampNeg_ofNat (by omega), Cell.toNatClampNeg_ofNat (by omega)] at hequal
  rw [hequal]

theorem frame {area : Nat → Prop} (hrd : Reading bytes m) (hb : m.Bounded)
    (hsource : after.source = m.source) (hmem : Memory.SameOutside area m.memory after.memory)
    (harea : ∀ addr, area addr → ¬ SourceArea addr) : Reading bytes after := by
  obtain ⟨offset, hoff, htoIn, hbytes⟩ := hrd.left
  have hlow := hrd.low
  have hhigh := hrd.high
  have hsize := hb.size_eq
  have horder := order
  refine ⟨hsource ▸ hlow, hsource ▸ hhigh, offset, hsource ▸ hoff, ?_, ?_⟩
  · rw [hmem.cellAt fun other hfst hlast hin => harea other hin (.inl ⟨hfst, hlast⟩), htoIn]
  · rw [hsource, hmem.bytesAt (by omega) fun other hfst hlast hin => ?_, hbytes]
    refine harea other hin (.inr ?_)
    rw [holds_mk]
    omega

variable (hrd : Reading bytes m)

include hrd

theorem note (hb : m.Bounded) (pointCount : Cell) :
    Reading bytes { m with memory := m.memory.setCell Layout.pointCount pointCount } := by
  refine hrd.frame hb rfl (sameOutside_setCell _ _ _) fun addr hin hsource => ?_
  rw [holds_mk] at hin
  have horder := order
  rcases hsource with ⟨_, hlast⟩ | ⟨hlow, _⟩
  · simp only at hlast
    omega
  · simp only at hlow
    omega

theorem legible (hb : m.Bounded) : m.Legible := by
  have hlow := hrd.low
  have hhigh := hrd.high
  have hsize := hb.size_eq
  have horder := order
  refine ⟨hsize, by omega, fun addr hin hcell => ?_⟩
  rw [Region.holds_mk] at hin hcell
  omega

theorem unread_eq (hb : m.Bounded) : m.unread = bytes := by
  have hleg := hrd.legible hb
  obtain ⟨offset, hoff, htoIn, hbytes⟩ := hrd.left
  rw [Machine.unread, Machine.offset_eq htoIn hoff hleg.length_lt, Machine.sourceBytes,
    ← bytesAt_drop _ hleg.inside hoff, hbytes]

theorem advance (hb : m.Bounded) (count : Nat) :
    Reading (bytes.drop count)
      (m.readTo (Cell.ofNat (min (m.offset + count) m.source.length))) := by
  have hleg := hrd.legible hb
  have hplace := Nat.min_le_right (m.offset + count) m.source.length
  have hafter := hleg.readTo (Cell.ofNat (min (m.offset + count) m.source.length))
  refine ⟨hrd.low, hrd.high, _, hplace, hleg.cellAt_readTo _, ?_⟩
  refine (Memory.bytesAt_drop _ hafter.inside hplace).trans ?_
  rw [← hrd.unread_eq hb, ← hleg.unread_advance, hleg.unread_readTo hplace]
  exact congrArg (List.drop _) (hleg.sourceBytes_readTo _)

end Reading

namespace WordM

variable {bytes : List UInt8} {m : Machine}

variable {rest : List (List UInt8)}

theorem nextToken?_of_words {word : List UInt8} (hrd : Reading bytes m)
    (hb : m.Bounded) (hwords : words bytes = word :: rest) :
    ∃ toIn, nextToken? m = .ok (some (Utf8.decodeLossy word)) (m.readTo toIn) ∧
      Reading (Text.afterWord bytes) (m.readTo toIn) ∧ Text.words (Text.afterWord bytes) = rest := by
  have hnext := nextToken?_eq (hrd.legible hb)
  have hafter := hrd.advance hb (Text.skipped bytes + ((Text.nextWord bytes).length + 1))
  rw [Machine.afterWord, hrd.unread_eq hb, hwords] at hnext
  rw [← Text.afterWord_eq_drop] at hafter
  exact ⟨_, hnext, hafter, by rw [words_afterWord, hwords]; rfl⟩

theorem nextToken?_of_reading {token : String} {rest : List (List UInt8)} (hrd : Reading bytes m)
    (hb : m.Bounded) (hwords : words bytes = encode token :: rest) :
    ∃ toIn, nextToken? m = .ok (some token) (m.readTo toIn) ∧
      Reading (afterWord bytes) (m.readTo toIn) ∧ words (afterWord bytes) = rest := by
  have hnext := nextToken?_of_words hrd hb hwords
  rwa [decodeLossy_encode] at hnext

theorem nextToken?_of_end (hrd : Reading bytes m) (hb : m.Bounded)
    (hwords : Text.words bytes = []) : ∃ toIn, nextToken? m = .ok none (m.readTo toIn) := by
  have hnext := nextToken?_eq (hrd.legible hb)
  rw [hrd.unread_eq hb, hwords] at hnext
  exact ⟨_, hnext⟩

theorem requireName_of_reading {token : String} (hrd : Reading bytes m)
    (hb : m.Bounded) (hwords : words bytes = encode token :: rest) :
    ∃ toIn, requireName m = .ok token (m.readTo toIn) ∧
      Reading (afterWord bytes) (m.readTo toIn) ∧ words (afterWord bytes) = rest := by
  obtain ⟨toIn, hnext, hafter⟩ := nextToken?_of_reading hrd hb hwords
  exact ⟨toIn, bind_of_ok hnext, hafter⟩

theorem parse_of_reading (delimiter : UInt8) (hrd : Reading bytes m) (hb : m.Bounded) :
    ∃ toIn text, parse delimiter m = .ok text (m.readTo toIn) ∧
      Reading (bytes.drop ((bytes.takeWhile (· != delimiter)).length + 1)) (m.readTo toIn) := by
  have hparse := parse_eq delimiter (hrd.legible hb)
  rw [hrd.unread_eq hb] at hparse
  exact ⟨_, _, hparse, hrd.advance hb _⟩

end WordM

/-! ### Interpreting a line -/

namespace Interpreter

open WordM

variable {serve : Serve} {bytes : List UInt8} {m after : Machine} {fuel : Nat}

theorem interpretSource_of_token {token : String} {toIn : Cell}
    (hnext : nextToken? m = .ok (some token) (m.readTo toIn))
    (htoken : interpretToken serve token (m.readTo toIn) = .ok () after) (hexit : after.exiting = false) :
    interpretSource serve (fuel + 1) m = interpretSource serve fuel after := by
  rw [interpretSource]
  refine (bind_of_ok (run_of_ok hnext)).trans ?_
  refine (bind_of_ok htoken).trans ?_
  refine (bind_of_ok (show (get : RunM Machine) after = .ok after after from rfl)).trans ?_
  rw [hexit, if_neg Bool.false_ne_true]

variable {toIn : Cell} {line : List UInt8}

theorem interpretSource_of_error {token : String} {halt : Halt}
    (hnext : nextToken? m = .ok (some token) (m.readTo toIn))
    (htoken : interpretToken serve token (m.readTo toIn) = .error halt after) :
    interpretSource serve (fuel + 1) m = .error halt after := by
  rw [interpretSource]
  refine (bind_of_ok (run_of_ok hnext)).trans ?_
  exact bind_of_error htoken

theorem interpretSource_of_end (hnext : nextToken? m = .ok none (m.readTo toIn)) :
    interpretSource serve (fuel + 1) m = .ok () (m.readTo toIn) := by
  rw [interpretSource]
  exact bind_of_ok (run_of_ok hnext)

/-- The machine once a line was put into the input buffer. -/
def withLine (m : Machine) (line : List UInt8) : Machine :=
  Machine.readTo { m with
    memory := m.memory.setBytes inputBuffer line
    source := ⟨inputBuffer, line.length⟩ } 0

theorem writeLine_eq (hsize : m.memory.size = memorySize) (hline : line.length ≤ inputBufferSize) :
    onMemory (writeBytes inputBuffer line) m =
      .ok () { m with memory := m.memory.setBytes inputBuffer line } := by
  have horder := order
  rw [onMemory, writeBytes_eq_ok _ (by omega)]

theorem setLine_eq (line : List UInt8) (hsize : m.memory.size = memorySize) :
    setSource ⟨inputBuffer, line.length⟩
      { m with memory := m.memory.setBytes inputBuffer line } = .ok () (withLine m line) :=
  (bind_of_ok rfl).trans (writeToIn_eq ((size_setBytes ..).trans hsize) 0)

theorem interpretLine_eq {line : String} (hsize : m.memory.size = memorySize)
    (hline : (encode line).length ≤ inputBufferSize) :
    interpretLine serve fuel line m = interpretSource serve fuel (withLine m (encode line)) := by
  rw [interpretLine, if_neg (by omega)]
  exact (bind_of_ok (run_of_ok (writeLine_eq hsize hline))).trans (bind_of_ok (run_of_ok (setLine_eq _ hsize)))

theorem sourceArea_withLine (m : Machine) (hline : line.length ≤ inputBufferSize) :
    Memory.SameOutside SourceArea m.memory (withLine m line).memory := by
  refine ((sameOutside_setBytes _ _ _).mono fun addr hin => .inr ?_).trans
    ((sameOutside_setCell _ _ _).mono fun addr hin => .inl hin)
  have horder := order
  rw [holds_mk] at hin ⊢
  omega

theorem sameOutside_withLine (m : Machine) (hline : line.length ≤ inputBufferSize) :
    Memory.SameOutside (mk Layout.toIn pad).Holds m.memory (withLine m line).memory := by
  refine (sourceArea_withLine m hline).mono fun addr hin => ?_
  have horder := order
  rcases hin with hin | hin
  all_goals
    rw [holds_mk] at hin ⊢
    omega

theorem bounded_withLine (hb : m.Bounded) (hline : line.length ≤ inputBufferSize) : (withLine m line).Bounded :=
  { hb.withMemory (sameOutside_withLine m hline).size with }

section

variable (hsize : m.memory.size = memorySize)

include hsize

theorem legible_withLine (hline : line.length ≤ inputBufferSize) : (withLine m line).Legible := by
  have horder := Layout.order
  have hsource : (withLine m line).source = ⟨inputBuffer, line.length⟩ := rfl
  have hafter := (sameOutside_withLine m hline).size
  refine ⟨hafter.trans hsize, by rw [hsource, hafter]; simp only; omega, fun addr hin hcell => ?_⟩
  rw [hsource] at hin
  rw [Region.holds_mk] at hin hcell
  simp only at hin
  omega

theorem toIn_withLine (line : List UInt8) : (withLine m line).memory.cellAt Layout.toIn = 0 :=
  cellAt_setCell _ _ _ (by rw [size_setBytes, hsize]; decide)

theorem bytesAt_withLine (hline : line.length ≤ inputBufferSize) :
    (withLine m line).memory.bytesAt inputBuffer line.length = line := by
  have horder := order
  have hmem : (withLine m line).memory =
      (m.memory.setBytes inputBuffer line).setCell Layout.toIn 0 := rfl
  have hset := sameOutside_setCell (m.memory.setBytes inputBuffer line) Layout.toIn 0
  rw [hmem, hset.bytesAt (by rw [size_setBytes]; omega) fun other hfst _ hin => by
    rw [holds_mk] at hin; omega, bytesAt_setBytes _ _ _ (by omega)]

end

theorem reading_withLine (hb : m.Bounded)
    (hline : line.length ≤ inputBufferSize) : Reading line (withLine m line) := by
  have horder := order
  have hsource : (withLine m line).source = ⟨inputBuffer, line.length⟩ := rfl
  refine ⟨Nat.le_refl _, ?_, 0, Nat.zero_le _, toIn_withLine hb.size_eq line,
    bytesAt_withLine hb.size_eq hline⟩
  rw [hsource]
  simp only
  omega

end Interpreter

end ThreadedForth
