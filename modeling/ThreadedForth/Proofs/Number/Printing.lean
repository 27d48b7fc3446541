import Mathlib.Data.Nat.Digits.Lemmas
import ThreadedForth.Proofs.Arithmetic.Division
import ThreadedForth.Proofs.Number.RoundTrip

/-!
# Printed numbers

What is written for a number is its only numeral: digits below the base, in upper case and without a
leading zero. In the smallest base it has at most 64 digits, so the number buffer always holds it, and
the words that print a number of a valid base fail only for want of items.
-/

namespace ThreadedForth.Number

open Layout Utf8 List

/-- The digits from zero to 35 in their order. -/
def alphabet : List Char := "0123456789ABCDEFGHIJKLMNOPQRSTUVWXYZ".toList

/-- The text is a numeral of the number: digits below the base, the first one not zero unless it is
the only one. -/
def IsNumeral (base n : Nat) (text : String) : Prop :=
  ∃ digits : List Nat, text = String.ofList (digits.map fun d => alphabet.getD d ' ') ∧
    (∀ d ∈ digits, d < base) ∧ digits.foldl (fun value d => value * base + d) 0 = n ∧
    digits ≠ [] ∧ (digits.head? = some 0 → digits = [0])

/-- As `IsNumeral`, with a minus sign before the magnitude of a negative number. -/
def IsSignedNumeral (base : Nat) (n : Int) (text : String) : Prop :=
  ∃ magnitude, IsNumeral base n.natAbs magnitude ∧ text = (if n < 0 then "-" else "") ++ magnitude

/-! ### Numerals -/

/-- The digits that are written for a number, the first one first. -/
def digitsOf (base n : Nat) : List Nat := if n = 0 then [0] else (Nat.digits base n).reverse

theorem digitChar_eq : ∀ d < 36, digitChar d = alphabet.getD d ' ' := by decide

variable {base n : Nat}

theorem digitsOf_eq_append (hlow : 2 ≤ base) (hquot : n / base ≠ 0) :
    digitsOf base n = digitsOf base (n / base) ++ [n % base] := by
  have hn : n ≠ 0 := fun hzero => hquot (by rw [hzero, Nat.zero_div])
  rw [digitsOf, digitsOf, if_neg hn, if_neg hquot, Nat.digits_def' hlow (Nat.pos_of_ne_zero hn), reverse_cons]

theorem digitsOf_of_lt (hn : n < base) : digitsOf base n = [n] := by
  rw [digitsOf]
  split
  · next hzero => rw [hzero]
  · next hzero => rw [Nat.digits_of_lt base n hzero hn, reverse_singleton]

theorem digitsOnto_eq (hlow : 2 ≤ base) {steps : Nat} (hsteps : n ≤ steps) (rest : List Char) :
    digitsOnto base steps n rest = (digitsOf base n).map digitChar ++ rest := by
  induction steps generalizing n rest with
  | zero =>
    rw [Nat.le_zero.1 hsteps, digitsOnto, Nat.zero_mod]
    rfl
  | succ steps ih =>
    rw [digitsOnto]
    split
    · next hquot =>
      have hless : n < base := (Nat.div_eq_zero_iff_lt (by omega)).1 hquot
      rw [digitsOf_of_lt hless, Nat.mod_eq_of_lt hless]
      rfl
    · next hquot =>
      have hpos : 0 < n := Nat.pos_of_ne_zero fun hn => hquot (by rw [hn, Nat.zero_div])
      have hless : n / base < n := Nat.div_lt_self hpos hlow
      rw [ih (by omega), digitsOf_eq_append hlow hquot, map_append, append_assoc]
      rfl

theorem lt_of_mem_digitsOf (hlow : 2 ≤ base) {d : Nat} (hd : d ∈ digitsOf base n) : d < base := by
  rw [digitsOf] at hd
  split at hd
  · rw [mem_singleton.1 hd]
    omega
  · exact Nat.digits_lt_base hlow (mem_reverse.1 hd)

theorem unsigned_eq (hlow : 2 ≤ base) (hhigh : base ≤ 36) (n : Nat) :
    unsigned base n = String.ofList ((digitsOf base n).map fun d => alphabet.getD d ' ') := by
  rw [unsigned, digitsOnto_eq hlow (Nat.le_refl n), append_nil]
  congr 1
  apply map_congr_left
  intro d hd
  exact digitChar_eq d (Nat.lt_of_lt_of_le (lt_of_mem_digitsOf hlow hd) hhigh)

theorem foldl_eq_ofDigits (digits : List Nat) :
    digits.foldl (fun value d => value * base + d) 0 = Nat.ofDigits base digits.reverse := by
  rw [Nat.ofDigits_eq_foldr, foldr_reverse]
  congr 1
  funext value d
  rw [Nat.cast_id, Nat.mul_comm, Nat.add_comm]

/-- The digits written are the only ones with their value. -/
theorem eq_digitsOf (hlow : 2 ≤ base) {digits : List Nat} (hdigits : ∀ d ∈ digits, d < base) (hne : digits ≠ [])
    (hhead : digits.head? = some 0 → digits = [0]) :
    digits = digitsOf base (digits.foldl (fun value d => value * base + d) 0) := by
  by_cases hzero : digits.head? = some 0
  · simp [hhead hzero, digitsOf]
  · have hlast (h : digits.reverse ≠ []) : digits.reverse.getLast h ≠ 0 := by
      intro hfirst
      rw [getLast_reverse] at hfirst
      exact hzero (by rw [head?_eq_some_head hne, hfirst])
    have hback := Nat.digits_ofDigits base hlow digits.reverse (by simpa using hdigits) hlast
    rw [foldl_eq_ofDigits, digitsOf, hback, reverse_reverse, if_neg]
    intro hvalue
    rw [hvalue, Nat.digits_zero] at hback
    exact hne (reverse_eq_nil_iff.1 hback.symm)

theorem isNumeral_iff (hlow : 2 ≤ base) (hhigh : base ≤ 36) (n : Nat) (text : String) :
    IsNumeral base n text ↔ text = unsigned base n := by
  rw [unsigned_eq hlow hhigh]
  constructor
  · rintro ⟨digits, rfl, hdigits, rfl, hne, hhead⟩
    rw [← eq_digitsOf hlow hdigits hne hhead]
  · rintro rfl
    refine ⟨_, rfl, fun d hd => lt_of_mem_digitsOf hlow hd, ?_, ?_, ?_⟩
    · rw [foldl_eq_ofDigits, digitsOf]
      split
      · next hzero => rw [hzero]; rfl
      · rw [reverse_reverse, Nat.ofDigits_digits]
    · rw [digitsOf]
      split
      · exact cons_ne_nil _ _
      · next hn => exact fun hnil => Nat.digits_ne_nil_iff_ne_zero.2 hn (reverse_eq_nil_iff.1 hnil)
    · rw [digitsOf]
      split
      · exact fun _ => rfl
      · next hn =>
        rw [head?_reverse, getLast?_eq_some_getLast (Nat.digits_ne_nil_iff_ne_zero.2 hn)]
        exact fun hlast => absurd (Option.some.inj hlast) (Nat.getLast_digit_ne_zero base hn)

theorem isSignedNumeral_iff (hlow : 2 ≤ base) (hhigh : base ≤ 36) (n : Int) (text : String) :
    IsSignedNumeral base n text ↔ text = signed base n := by
  simp only [IsSignedNumeral, isNumeral_iff hlow hhigh, exists_eq_left, signed]
  split <;> simp

/-! ### Their length -/

theorem length_encode_unsigned (hlow : 2 ≤ base) (hhigh : base ≤ 36) (hn : n < 2 ^ 64) :
    (encode (unsigned base n)).length ≤ 64 := by
  have hbytes (digits : List Nat) (hdigits : ∀ d ∈ digits, d < 36) :
      (charBytes (digits.map digitChar)).length = digits.length := by
    induction digits with
    | nil => rfl
    | cons d rest ih =>
      rw [map_cons, charBytes_digit (hdigits d mem_cons_self), length_cons, length_cons,
        ih fun other hother => hdigits other (mem_cons_of_mem _ hother)]
  have htext : encode (unsigned base n) = charBytes ((digitsOf base n).map digitChar) := by
    rw [unsigned, digitsOnto_eq hlow (Nat.le_refl n), append_nil, encode, String.toList_ofList]
    rfl
  rw [htext, hbytes _ fun d hd => Nat.lt_of_lt_of_le (lt_of_mem_digitsOf hlow hd) hhigh, digitsOf]
  split
  · decide
  · rw [length_reverse, Nat.digits_length_le_iff hlow]
    exact Nat.lt_of_lt_of_le hn (Nat.pow_le_pow_left hlow 64)

theorem length_encode_signed (hlow : 2 ≤ base) (hhigh : base ≤ 36) {n : Int} (hn : n.natAbs < 2 ^ 64) :
    (encode (signed base n)).length ≤ 65 := by
  have hmagnitude := length_encode_unsigned hlow hhigh hn
  rw [signed]
  split
  · rw [encode_append, length_append, show (encode "-").length = 1 from rfl]
    omega
  · omega

end ThreadedForth.Number

namespace ThreadedForth

open WordM Layout Utf8

/-! ### Words that print -/

/-- The word takes so many cells and prints the text and a blank. Besides the popped cells and the
output it changes only bytes of the number buffer. -/
def OutputWord.Prints (m : Machine) (word : OutputWord) (cells : Nat) (text : String) : Prop :=
  ∃ memory : Memory, (Prim.output word).perform m = .ok none { m with
      memory, data := { m.data with top := m.data.top + 4 * cells }, output := m.output ++ encode (text ++ " ") } ∧
    Memory.SameOutside (Region.mk numberBuffer (numberBuffer + numberBufferSize)).Holds
      m.memory memory

namespace OutputWord

variable {m : Machine} {base : Nat}

theorem printNumber_of_fits (hsize : m.memory.size = memorySize) {text : String}
    (hfits : (encode text).length ≤ 65) :
    printNumber text m = .ok () { m with
      memory := m.memory.setBytes numberBuffer (encode text)
      output := m.output ++ encode (text ++ " ") } := by
  have hplace : numberBuffer + 65 ≤ m.memory.size := by rw [hsize]; decide
  have hwrite := Memory.writeBytes_eq_ok (encode text)
    (show numberBuffer + (encode text).length ≤ m.memory.size by omega)
  have hread := Memory.readBytes_eq_ok (show numberBuffer + (encode text).length ≤
    (m.memory.setBytes numberBuffer (encode text)).size by rw [Memory.size_setBytes]; omega)
  rw [Memory.bytesAt_setBytes _ _ _ (by omega)] at hread
  have hstage : onMemory (Memory.writeBytes numberBuffer (encode text)) m =
      .ok () { m with memory := m.memory.setBytes numberBuffer (encode text) } := by
    rw [onMemory, hwrite]
  have hback : readBytes numberBuffer (encode text).length
      { m with memory := m.memory.setBytes numberBuffer (encode text) } = .ok (encode text)
      { m with memory := m.memory.setBytes numberBuffer (encode text) } := by
    rw [readBytes, ask, hread]
  have hshort : ¬ numberBufferSize < (encode text).length :=
    Nat.not_lt.2 (hfits.trans (by decide))
  rw [printNumber, if_neg hshort]
  refine (bind_of_ok hstage).trans ((bind_of_ok hback).trans ?_)
  have hjoin : m.output ++ encode text ++ ([32] : List UInt8) = m.output ++ encode (text ++ " ") := by
    rw [Number.encode_append]
    exact Array.ext' (by simp [show encode " " = [32] from rfl])
  rw [← hjoin]
  rfl

theorem ask_base (hsize : m.memory.size = memorySize) (hlow : 2 ≤ base) (hhigh : base ≤ 36)
    (hbase : m.memory.cellAt Layout.base = Cell.ofNat base) : ask Machine.base m = .ok base m := by
  have hcell := Cell.toInt_ofNat (show base < 2 ^ 31 by omega)
  have hvalid : (2 : Cell) ≤ Cell.ofNat base ∧ Cell.ofNat base ≤ 36 := by
    rw [Int32.le_iff_toInt_le, Int32.le_iff_toInt_le, hcell]
    exact ⟨Int.ofNat_le.2 hlow, Int.ofNat_le.2 hhigh⟩
  have hread : m.base = .ok (Cell.ofNat base).toNatClampNeg := by
    rw [Machine.base, Memory.readCell_eq_ok (by rw [hsize]; decide) (by decide), hbase]
    exact if_pos hvalid
  rw [ask, hread, Cell.toNatClampNeg_ofNat (by omega)]

/-- A word that takes a value, asks for the base and prints the value's text. -/
theorem prints_of_take {α : Type} (word : OutputWord) (take : WordM α) (text : Nat → α → String) {value : α} {cells : Nat}
    (hword : word.perform = take >>= fun value => ask Machine.base >>= fun base => printNumber (text base value))
    (hb : m.Bounded) (hlow : 2 ≤ base) (hhigh : base ≤ 36) (hbase : m.memory.cellAt Layout.base = Cell.ofNat base)
    (htake : take m = .ok value { m with data := { m.data with top := m.data.top + 4 * cells } })
    (hfits : (encode (text base value)).length ≤ 65) : word.Prints m cells (text base value) := by
  refine ⟨m.memory.setBytes numberBuffer (encode (text base value)), ?_, ?_⟩
  · have hsize : ({ m with data := { m.data with top := m.data.top + 4 * cells } } : Machine).memory.size =
        memorySize := hb.size_eq
    have htaken := (congrFun hword m).trans (bind_of_ok htake)
    have hasked := htaken.trans (bind_of_ok (ask_base hsize hlow hhigh hbase))
    exact bind_of_ok (hasked.trans (printNumber_of_fits hsize hfits))
  · exact (Memory.sameOutside_setBytes _ _ _).mono fun addr hin =>
      ⟨hin.1, Nat.lt_of_lt_of_le hin.2 (Nat.add_le_add_left (hfits.trans (by decide)) _)⟩

end OutputWord

/-- In every base from 2 to 36 the text of a number is its only numeral. Where that base is set and
there are items enough, the three words print the numeral of the cell with a sign, of the cell without
one and of the double, followed by a blank. -/
theorem numbers_print_canonically {base : Nat} (hlow : 2 ≤ base) (hhigh : base ≤ 36) :
    (∀ n text, Number.IsNumeral base n text ↔ text = Number.unsigned base n) ∧
    (∀ n text, Number.IsSignedNumeral base n text ↔ text = Number.signed base n) ∧
    ∀ m : Machine, m.Bounded → m.memory.cellAt Layout.base = Cell.ofNat base →
      let first := m.memory.cellAt m.data.top
      let second := m.memory.cellAt (m.data.top + 4)
      (1 ≤ m.data.depth → OutputWord.dot.Prints m 1 (Number.signed base first.toInt) ∧
        OutputWord.uDot.Prints m 1 (Number.unsigned base first.toUInt32.toNat)) ∧
      (2 ≤ m.data.depth → OutputWord.dDot.Prints m 2
        (Number.signed base (first.toInt * 2 ^ 32 + second.toUInt32.toNat))) := by
  refine ⟨Number.isNumeral_iff hlow hhigh, Number.isSignedNumeral_iff hlow hhigh, fun m hb hbase => ⟨?_, ?_⟩⟩
  · intro hdepth
    have hpop : pop m = .ok (m.memory.cellAt m.data.top) { m with data := { m.data with top := m.data.top + 4 * 1 } } := by
      rw [pop, popping, Stack.pop_of_items hb.data hb.size_eq (by rw [Stack.depth] at hdepth; omega)]
    have hleast := (m.memory.cellAt m.data.top).le_toInt
    have hmost := (m.memory.cellAt m.data.top).toInt_lt
    have hunsigned := (m.memory.cellAt m.data.top).toUInt32.toNat_lt
    have hfits := Number.length_encode_unsigned hlow hhigh (Nat.lt_of_lt_of_le hunsigned (by decide))
    exact ⟨OutputWord.prints_of_take .dot pop (fun base value => Number.signed base value.toInt) rfl hb hlow hhigh hbase
        hpop (Number.length_encode_signed hlow hhigh (by omega)),
      OutputWord.prints_of_take .uDot pop (fun base value => Number.unsigned base value.toUInt32.toNat) rfl hb hlow hhigh
        hbase hpop (by omega)⟩
  · intro hdepth
    have hitems : m.data.top + 8 ≤ m.data.base := by
      rw [Stack.depth] at hdepth
      omega
    have hfst : pop m = .ok (m.memory.cellAt m.data.top) { m with data := { m.data with top := m.data.top + 4 } } := by
      rw [pop, popping, Stack.pop_of_items hb.data hb.size_eq (by omega)]
    have hsnd : pop { m with data := { m.data with top := m.data.top + 4 } } = .ok (m.memory.cellAt (m.data.top + 4))
        { m with data := { m.data with top := m.data.top + 4 + 4 } } := by
      rw [pop, popping, Stack.pop_of_items (hb.data.raise (by omega)) hb.size_eq (show m.data.top + 4 < m.data.base by omega)]
    have hpop := (popDouble_of_items hb hitems).trans ((bind_of_ok hfst).trans (bind_of_ok hsnd))
    have hleast := (DoubleCell.join (m.memory.cellAt (m.data.top + 4)) (m.memory.cellAt m.data.top)).le_toInt
    have hmost := (DoubleCell.join (m.memory.cellAt (m.data.top + 4)) (m.memory.cellAt m.data.top)).toInt_lt
    rw [← DoubleCell.toInt_join]
    exact OutputWord.prints_of_take .dDot popDouble (fun base value => Number.signed base value.toInt) rfl hb hlow hhigh
      hbase hpop (Number.length_encode_signed hlow hhigh (by omega))

/-- The least cell in the base with the longest numerals. -/
theorem numbers_print_canonically_least :
    let start := Machine.new .empty false
    let m := { start with
      memory := (start.memory.setCell Layout.base 2).setCell (start.data.top - 4) Int32.minValue
      data := { start.data with top := start.data.top - 4 } }
    m.Bounded ∧ m.memory.cellAt Layout.base = Cell.ofNat 2 ∧ 1 ≤ m.data.depth ∧
      OutputWord.dot.Prints m 1 "-10000000000000000000000000000000" := by
  intro start m
  have hnew := Machine.bounded_new .empty false
  have hmem : m.memory.size = start.memory.size := by
    rw [Memory.size_setCell, Memory.size_setCell]
  have hb : m.Bounded := (hnew.withMemory hmem).withData (hnew.data.moveTop
    (by decide : _ ≤ Layout.dataStack + Layout.dataCells * 4 - 4) (by decide) (by decide))
  have hsize : start.memory.size = Layout.memorySize := hnew.size_eq
  have hbase : m.memory.cellAt Layout.base = Cell.ofNat 2 := by
    rw [Memory.cellAt_setCell_of_apart _ _ (.inl (by decide)), Memory.cellAt_setCell _ _ _ (by rw [hsize]; decide)]
    rfl
  have htop : m.memory.cellAt m.data.top = Int32.minValue :=
    Memory.cellAt_setCell _ _ _ (by rw [Memory.size_setCell, hsize]; decide)
  have hprints := ((numbers_print_canonically (Nat.le_refl 2) (by decide)).2.2 m hb hbase).1 (by decide)
  rw [htop] at hprints
  exact ⟨hb, hbase, by decide, hprints.1⟩

end ThreadedForth
