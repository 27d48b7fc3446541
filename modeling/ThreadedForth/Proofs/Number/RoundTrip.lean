
import ThreadedForth.Number.Numeral

/-!
# Numerals read back

The text of a number in a base is read as the same number in that base, a single as a single and a
double as a double. Digits are put down from the last to the first and read from the first to the last,
so the induction is on the number of divisions: what is read before the last digit is the quotient.
-/

namespace ThreadedForth.Number

open Utf8 Digits

/-! ### Digits -/

/-- The byte of a digit below 36. -/
def digitByte (d : Nat) : UInt8 := UInt8.ofNat (if d < 10 then 48 + d else 55 + d)

/-- What is written for a digit, and what it is read as. No digit is a quote, a sign or a base mark. -/
theorem digitByte_table : ∀ d < 36, String.utf8EncodeChar (digitChar d) = [digitByte d] ∧
    (digitByte d ≠ 39 ∧ digitByte d ≠ 45 ∧ markedBase? (digitByte d) = none) ∧
    ∀ base < 37, d < base → digit? base (digitByte d) = some d := by decide +kernel

variable {d : Nat}

theorem utf8EncodeChar_digitChar (hd : d < 36) : String.utf8EncodeChar (digitChar d) = [digitByte d] :=
  (digitByte_table d hd).1

theorem digit?_digitByte (hbase : base ≤ 36) (hd : d < base) : digit? base (digitByte d) = some d :=
  (digitByte_table d (by omega)).2.2 base (by omega) hd

theorem digitByte_plain (hd : d < 36) : digitByte d ≠ 39 ∧ digitByte d ≠ 45 ∧ markedBase? (digitByte d) = none :=
  (digitByte_table d hd).2.1

/-- The bytes of a list of characters. -/
def charBytes (chars : List Char) : List UInt8 := chars.flatMap String.utf8EncodeChar

theorem charBytes_digit (hd : d < 36) (chars : List Char) :
    charBytes (digitChar d :: chars) = digitByte d :: charBytes chars := by
  rw [charBytes, List.flatMap_cons, utf8EncodeChar_digitChar hd]
  rfl

/-! ### Reading the digits of a number -/

variable {base : Nat}

theorem next?_digitByte (hbase : base ≤ 36) (hd : d < base) (value : UInt64) (count : Nat) :
    next? base ⟨value, count, -1⟩ (digitByte d) =
      some ⟨value * UInt64.ofNat base + UInt64.ofNat d, count + 1, -1⟩ := by
  rw [next?, digit?_digitByte hbase hd]
  rfl

theorem foldlM_digitChar (hbase : base ≤ 36) (hd : d < base) (quotient count : Nat) (rest : List Char) :
    (charBytes (digitChar d :: rest)).foldlM (next? base) ⟨UInt64.ofNat quotient, count, -1⟩ =
      (charBytes rest).foldlM (next? base) ⟨UInt64.ofNat (quotient * base + d), count + 1, -1⟩ := by
  rw [charBytes_digit (by omega), List.foldlM_cons, next?_digitByte hbase hd, UInt64.ofNat_add, UInt64.ofNat_mul]
  rfl

theorem digitsOnto_of_last {n : Nat} (hlast : n / base = 0) (steps : Nat) (rest : List Char) :
    digitsOnto base (steps + 1) n rest = digitChar (n % base) :: rest :=
  if_pos hlast

theorem digitsOnto_of_more {n : Nat} (hmore : n / base ≠ 0) (steps : Nat) (rest : List Char) :
    digitsOnto base (steps + 1) n rest = digitsOnto base steps (n / base) (digitChar (n % base) :: rest) :=
  if_neg hmore

theorem foldlM_digitsOnto (hlow : 2 ≤ base) (hhigh : base ≤ 36) {steps n : Nat} (hsteps : n ≤ steps)
    (rest : List Char) :
    ∃ count, 0 < count ∧
      (charBytes (digitsOnto base steps n rest)).foldlM (next? base) empty =
        (charBytes rest).foldlM (next? base) ⟨UInt64.ofNat n, count, -1⟩ := by
  have hone {n : Nat} (rest : List Char) (hn : n / base = 0) :
      (charBytes (digitChar (n % base) :: rest)).foldlM (next? base) empty =
        (charBytes rest).foldlM (next? base) ⟨UInt64.ofNat n, 1, -1⟩ := by
    have hsplit := Nat.div_add_mod' n base
    rw [hn] at hsplit
    exact (foldlM_digitChar hhigh (Nat.mod_lt n (by omega)) 0 0 rest).trans (by rw [hsplit])
  induction steps generalizing n rest with
  | zero => exact ⟨1, Nat.zero_lt_one, hone rest (by rw [Nat.le_zero.1 hsteps, Nat.zero_div])⟩
  | succ steps ih =>
    by_cases hquot : n / base = 0
    · rw [digitsOnto_of_last hquot]
      exact ⟨1, Nat.zero_lt_one, hone rest hquot⟩
    · have hpos : 0 < n := Nat.pos_of_ne_zero fun hn => hquot (by rw [hn, Nat.zero_div])
      have hless : n / base < n := Nat.div_lt_self hpos hlow
      obtain ⟨count, _, hread⟩ := @ih (n / base) (by omega) (digitChar (n % base) :: rest)
      refine ⟨count + 1, Nat.succ_pos count, ?_⟩
      rw [digitsOnto_of_more hquot, hread, foldlM_digitChar hhigh (Nat.mod_lt n (by omega)), Nat.div_add_mod']

theorem digitsOnto_append (steps n : Nat) (rest : List Char) :
    digitsOnto base steps n [] ++ rest = digitsOnto base steps n rest := by
  -- both sides are put before what stands behind them
  have honto (front : List Char) :
      digitsOnto base steps n front ++ rest = digitsOnto base steps n (front ++ rest) := by
    induction steps generalizing n front with
    | zero => rfl
    | succ steps ih =>
      by_cases hquot : n / base = 0
      · rw [digitsOnto_of_last hquot, digitsOnto_of_last hquot, List.cons_append]
      · rw [digitsOnto_of_more hquot, digitsOnto_of_more hquot]
        exact ih (n / base) _
  exact honto []

theorem digitsOnto_eq_cons (hlow : 2 ≤ base) (steps n : Nat) (rest : List Char) :
    ∃ d more, d < base ∧ digitsOnto base steps n rest = digitChar d :: more := by
  have hlast (n : Nat) : n % base < base := Nat.mod_lt n (by omega)
  induction steps generalizing n rest with
  | zero => exact ⟨n % base, rest, hlast n, rfl⟩
  | succ steps ih =>
    by_cases hquot : n / base = 0
    · exact ⟨n % base, rest, hlast n, digitsOnto_of_last hquot steps rest⟩
    · rw [digitsOnto_of_more hquot]
      exact ih (n / base) _

/-! ### Reading a numeral -/

/-- The number that digits write, if there are any. -/
def Digits.result (negative : Bool) (digits : Option Digits) : Option (Number × Cell) :=
  match digits with
  | some digits => if digits.count = 0 then none else some (digits.number negative, digits.afterPoint)
  | none => none

theorem takeMinus_of_head? {bytes : List UInt8} (hhead : bytes.head? ≠ some 45) : takeMinus bytes = (false, bytes) := by
  rw [takeMinus]
  rintro rest rfl
  exact hhead rfl

theorem takeMark_of_none {byte : UInt8} (hmark : markedBase? byte = none) (rest : List UInt8) :
    takeMark (byte :: rest) = (none, byte :: rest) := by
  rw [takeMark, hmark]

/-- A token that is no quoted byte is read as its sign, its base mark and its digits are. -/
theorem readBytes?_of_parts {base : Nat} {bytes unsigned unmarked rest : List UInt8} {before after : Bool}
    {mark : Option Nat} (hquoted : ∀ byte, bytes ≠ [39, byte, 39]) (hbefore : takeMinus bytes = (before, unsigned))
    (hmark : takeMark unsigned = (mark, unmarked))
    (hafter : (if before then (false, unmarked) else takeMinus unmarked) = (after, rest)) :
    readBytes? base bytes = Digits.result (before || after) (Digits.read? (mark.getD base) rest) := by
  rw [readBytes?]
  · simp only [hbefore, hmark, hafter]
    rfl
  · exact hquoted

theorem readBytes?_digit (hd : d < 36) (rest : List UInt8) :
    readBytes? base (digitByte d :: rest) =
      Digits.result false (Digits.read? base (digitByte d :: rest)) := by
  obtain ⟨hquote, hminus, hmark⟩ := digitByte_plain hd
  have htake : takeMinus (digitByte d :: rest) = (false, digitByte d :: rest) :=
    takeMinus_of_head? fun hhead => hminus (Option.some.inj hhead)
  exact readBytes?_of_parts (fun _ heq => hquote (List.cons.inj heq).1) htake (takeMark_of_none hmark rest) htake

theorem readBytes?_minus_digit (hd : d < 36) (rest : List UInt8) :
    readBytes? base (45 :: digitByte d :: rest) =
      Digits.result true (Digits.read? base (digitByte d :: rest)) := by
  obtain ⟨_, _, hmark⟩ := digitByte_plain hd
  have htake : takeMinus (45 :: digitByte d :: rest) = (true, digitByte d :: rest) := rfl
  refine readBytes?_of_parts (fun _ heq => ?_) htake (takeMark_of_none hmark rest) rfl
  cases (List.cons.inj heq).1

theorem read?_digits (hlow : 2 ≤ base) (hhigh : base ≤ 36) (negative : Bool) (n : Nat) (rest : List Char) :
    ∃ count, 0 < count ∧
      readBytes? base ((if negative then [45] else []) ++ charBytes (digitsOnto base n n rest)) =
        result negative ((charBytes rest).foldlM (next? base) ⟨UInt64.ofNat n, count, -1⟩) := by
  obtain ⟨count, hcount, hread⟩ := foldlM_digitsOnto hlow hhigh (Nat.le_refl n) rest
  obtain ⟨d, more, hd, hdigits⟩ := digitsOnto_eq_cons hlow n n rest
  refine ⟨count, hcount, ?_⟩
  rw [← hread, hdigits, charBytes_digit (by omega)]
  cases negative with
  | false => exact readBytes?_digit (by omega) _
  | true => exact readBytes?_minus_digit (by omega) _

theorem encode_append (left right : String) : encode (left ++ right) = encode left ++ encode right := by
  rw [encode, String.toList_append, List.flatMap_append]
  rfl

theorem encode_signed (n : Int) (rest : List Char) :
    encode (signed base n ++ String.ofList rest) =
      (if decide (n < 0) then [45] else []) ++ charBytes (digitsOnto base n.natAbs n.natAbs rest) := by
  have hdigits : encode (unsigned base n.natAbs ++ String.ofList rest) =
      charBytes (digitsOnto base n.natAbs n.natAbs rest) := by
    rw [unsigned, encode, String.toList_append, String.toList_ofList, String.toList_ofList, digitsOnto_append]
    rfl
  rw [signed]
  by_cases hn : n < 0
  · rw [if_pos hn, String.append_assoc, encode_append, hdigits, decide_eq_true hn]
    rfl
  · rw [if_neg hn, hdigits, decide_eq_false hn]
    rfl

/-! ### Values -/

theorem single_of_magnitude (value : Cell) (count : Nat) :
    Digits.number ⟨UInt64.ofNat value.toInt.natAbs, count, -1⟩ (decide (value.toInt < 0)) = .single value := by
  have hcell : (UInt64.ofNat value.toInt.natAbs).toUInt32.toInt32 = Int32.ofInt value.toInt.natAbs := by
    rw [UInt64.toUInt32_ofNat', UInt32.toInt32_ofNat', Int32.ofInt_eq_ofNat]
  change Number.single (if decide (value.toInt < 0) then -_ else _) = _
  rw [hcell]
  by_cases hnegative : value.toInt < 0
  · rw [if_pos (decide_eq_true hnegative), Int.ofNat_natAbs_of_nonpos (by omega), ← Int32.ofInt_neg,
      Int.neg_neg, Int32.ofInt_toInt]
  · rw [if_neg (by simpa using hnegative), Int.natAbs_of_nonneg (by omega), Int32.ofInt_toInt]

theorem double_of_magnitude (value : DoubleCell) (count : Nat) :
    Digits.number ⟨UInt64.ofNat value.toInt.natAbs, count, 0⟩ (decide (value.toInt < 0)) = .double value := by
  have hdouble : (UInt64.ofNat value.toInt.natAbs).toInt64 = Int64.ofInt value.toInt.natAbs := by
    rw [UInt64.toInt64_ofNat', Int64.ofInt_eq_ofNat]
  change Number.double (if decide (value.toInt < 0) then -_ else _) = _
  rw [hdouble]
  by_cases hnegative : value.toInt < 0
  · rw [if_pos (decide_eq_true hnegative), Int.ofNat_natAbs_of_nonpos (by omega), ← Int64.ofInt_neg,
      Int.neg_neg, Int64.ofInt_toInt]
  · rw [if_neg (by simpa using hnegative), Int.natAbs_of_nonneg (by omega), Int64.ofInt_toInt]

/-! ### Round trips -/

theorem read?_render_single (hlow : 2 ≤ base) (hhigh : base ≤ 36) (value : Cell) :
    read? base (render base (.single value)) = some (.single value, -1) := by
  obtain ⟨count, hcount, hread⟩ := read?_digits hlow hhigh (decide (value.toInt < 0)) value.toInt.natAbs []
  have hbytes := @encode_signed base value.toInt []
  rw [String.ofList_nil, String.append_empty] at hbytes
  rw [read?, render, hbytes, hread]
  change (if count = 0 then none else some (Digits.number _ _, (-1 : Cell))) = _
  rw [if_neg (by omega), single_of_magnitude]

theorem read?_render_double (hlow : 2 ≤ base) (hhigh : base ≤ 36) (value : DoubleCell) :
    read? base (render base (.double value)) = some (.double value, 0) := by
  obtain ⟨count, hcount, hread⟩ := read?_digits hlow hhigh (decide (value.toInt < 0)) value.toInt.natAbs ['.']
  have hbytes : encode (signed base value.toInt ++ ".") = _ := encode_signed value.toInt ['.']
  have hnext : (charBytes ['.']).foldlM (next? base) ⟨UInt64.ofNat value.toInt.natAbs, count, -1⟩ =
      some ⟨UInt64.ofNat value.toInt.natAbs, count, 0⟩ := rfl
  rw [read?, render, hbytes, hread, hnext]
  change (if count = 0 then none else some (Digits.number _ _, (0 : Cell))) = _
  rw [if_neg (by omega), double_of_magnitude]

/-- In every base from 2 to 36 the text of a number reads back as that number: a single with no point,
a double with a point and no digits behind it. So a number that was read from any token is read again,
and as large as it was, from its own text. -/
theorem read?_render {base : Nat} (hlow : 2 ≤ base) (hhigh : base ≤ 36) :
    (∀ value, read? base (render base (.single value)) = some (.single value, -1)) ∧
      (∀ value, read? base (render base (.double value)) = some (.double value, 0)) ∧
      ∀ token number pointCount, read? base token = some (number, pointCount) →
        ∃ pointCount, read? base (render base number) = some (number, pointCount) := by
  refine ⟨read?_render_single hlow hhigh, read?_render_double hlow hhigh, ?_⟩
  intro token number _ _
  cases number with
  | single value => exact ⟨-1, read?_render_single hlow hhigh value⟩
  | double value => exact ⟨0, read?_render_double hlow hhigh value⟩

/-- The numbers whose magnitude does not fit, in the base with the most digits, and a token with a mark
of its own and two points. -/
theorem read?_render_least :
    (2 ≤ 36 ∧ 36 ≤ 36) ∧
      read? 36 (render 36 (.single Int32.minValue)) = some (.single Int32.minValue, -1) ∧
      read? 36 (render 36 (.double Int64.minValue)) = some (.double Int64.minValue, 0) ∧
      read? 36 "$-f.f,f" = some (.double (-4095), 1) ∧
      ∃ pointCount, read? 36 (render 36 (.double (-4095))) = some (.double (-4095), pointCount) := by
  have htoken : read? 36 "$-f.f,f" = some (.double (-4095), 1) := by decide
  obtain ⟨hsingle, hdouble, hagain⟩ := @read?_render 36 (by decide) (by decide)
  exact ⟨by decide, hsingle _, hdouble _, htoken, hagain _ _ _ htoken⟩

end ThreadedForth.Number
