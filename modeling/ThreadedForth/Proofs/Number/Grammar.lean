
import Mathlib.Data.List.Induction
import Mathlib.Data.Nat.Digits.Defs
import ThreadedForth.Proofs.Number.RoundTrip

/-!
# The grammar of numbers

Which tokens are numbers, and which number each of them is, said without an accumulator: the text is divided into
signs, a base mark and a rest of digits and points, and the number is the positional value of all the digits of the
rest, cut to the width of one cell or of two.

The reader takes a byte at a time, so the induction is on the rest with one byte more at its end.
-/

namespace ThreadedForth.Number

open Digits

/-! ### Digits and points -/

/-- The value of a digit, in either case. -/
def digitValue? (byte : UInt8) : Option Nat :=
  (List.range 36).find? fun d => byte == digitByte d || (decide (10 ≤ d) && byte == digitByte d + 32)

/-- The points `, . + - / :`. -/
def points : List UInt8 := Utf8.encode ",.+-/:"

/-- The byte is a digit in the base. -/
def IsDigit (base : Nat) (byte : UInt8) : Prop := ∃ d, digitValue? byte = some d ∧ d < base

instance (base : Nat) (byte : UInt8) : Decidable (IsDigit base byte) :=
  decidable_of_iff ((digitValue? byte).any (· < base) = true) (by simp [IsDigit, Option.any_eq_true])

theorem forall_byte {holds : UInt8 → Prop} (hall : ∀ n < 256, holds (UInt8.ofNat n)) (byte : UInt8) : holds byte := by
  have hbyte := hall byte.toNat byte.toNat_lt
  rwa [UInt8.ofNat_toNat] at hbyte

/-- The values of the digits. A quote and a base mark are no digits, and a byte is as much as a cell. -/
theorem digitValue?_table : ∀ byte : UInt8,
    ((if 48 ≤ byte.toNat ∧ byte.toNat ≤ 57 then some (byte.toNat - 48)
      else if 97 ≤ byte.toNat ∧ byte.toNat ≤ 122 then some (byte.toNat - 87)
      else if 65 ≤ byte.toNat ∧ byte.toNat ≤ 90 then some (byte.toNat - 55) else none) = digitValue? byte) ∧
    ((digitValue? byte).isSome = true → byte ≠ 39 ∧ markedBase? byte = none) ∧
    byte.toUInt32.toInt32.toInt = byte.toNat :=
  forall_byte (by decide +kernel)

theorem digit?_eq (base : Nat) (byte : UInt8) : digit? base byte = (digitValue? byte).filter (· < base) := by
  rw [← (digitValue?_table byte).1]
  rfl

theorem isDigit_iff {base : Nat} {byte : UInt8} : IsDigit base byte ↔ ∃ d, digit? base byte = some d := by
  simp only [IsDigit, digit?_eq, Option.filter_eq_some_iff, decide_eq_true_eq]

variable {d : Nat} {answer : Number × Cell}

theorem digitValue?_of_digit? {base : Nat} {byte : UInt8} (hdigit : digit? base byte = some d) :
    digitValue? byte = some d := by
  rw [digit?_eq, Option.filter_eq_some_iff] at hdigit
  exact hdigit.1

theorem mem_points {byte : UInt8} :
    byte ∈ points ↔ byte = 44 ∨ byte = 46 ∨ byte = 43 ∨ byte = 45 ∨ byte = 47 ∨ byte = 58 := by
  rw [show points = [44, 46, 43, 45, 47, 58] by decide]
  simp

theorem isPoint_iff {byte : UInt8} : isPoint byte = true ↔ byte ∈ points := by
  simp [mem_points, isPoint, or_assoc]

theorem digitValue?_point {byte : UInt8} (hpoint : byte ∈ points) : digitValue? byte = none := by
  rcases mem_points.1 hpoint with rfl | rfl | rfl | rfl | rfl | rfl <;> decide

theorem digit?_point {byte : UInt8} (hpoint : byte ∈ points) (base : Nat) : digit? base byte = none := by
  rw [digit?_eq, digitValue?_point hpoint]
  rfl

theorem not_mem_points {base : Nat} {byte : UInt8} (hdigit : digit? base byte = some d) : byte ∉ points := by
  intro hpoint
  rw [digit?_point hpoint] at hdigit
  cases hdigit

/-! ### Reading digits and points -/

/-- The bytes are digits in the base and points. -/
def Legal (base : Nat) (bytes : List UInt8) : Prop := ∀ byte ∈ bytes, IsDigit base byte ∨ byte ∈ points

instance (base : Nat) (bytes : List UInt8) : Decidable (Legal base bytes) :=
  inferInstanceAs (Decidable (∀ byte ∈ bytes, IsDigit base byte ∨ byte ∈ points))

/-- The digits among the bytes. -/
def digitsIn (bytes : List UInt8) : List Nat := bytes.filterMap digitValue?

/-- The positional value of the digits among the bytes. -/
def valueIn (base : Nat) (bytes : List UInt8) : Nat := Nat.ofDigits base (digitsIn bytes).reverse

/-- There is a point among the bytes. -/
def Pointed (bytes : List UInt8) : Prop := ∃ byte ∈ bytes, byte ∈ points

/-- How many bytes stand after the last point. -/
def lengthAfterPoint (bytes : List UInt8) : Nat := (bytes.reverse.takeWhile (· ∉ points)).length

section Append

variable {base d : Nat} {byte : UInt8}

theorem digitsIn_append_digit (hdigit : digit? base byte = some d) (bytes : List UInt8) :
    digitsIn (bytes ++ [byte]) = digitsIn bytes ++ [d] := by
  simp [digitsIn, List.filterMap_append, digitValue?_of_digit? hdigit]

theorem digitsIn_append_point (hpoint : byte ∈ points) (bytes : List UInt8) :
    digitsIn (bytes ++ [byte]) = digitsIn bytes := by
  simp [digitsIn, List.filterMap_append, digitValue?_point hpoint]

theorem valueIn_append_digit (hdigit : digit? base byte = some d) (bytes : List UInt8) :
    valueIn base (bytes ++ [byte]) = valueIn base bytes * base + d := by
  rw [valueIn, digitsIn_append_digit hdigit, List.reverse_append, List.reverse_singleton, List.singleton_append,
    Nat.ofDigits_cons, Nat.add_comm, Nat.mul_comm]
  rfl

theorem pointed_append (bytes : List UInt8) : Pointed (bytes ++ [byte]) ↔ Pointed bytes ∨ byte ∈ points := by
  simp [Pointed, or_and_right, exists_or]

theorem lengthAfterPoint_append_point (hpoint : byte ∈ points) (bytes : List UInt8) :
    lengthAfterPoint (bytes ++ [byte]) = 0 := by
  simp [lengthAfterPoint, hpoint]

theorem lengthAfterPoint_append_other (hother : byte ∉ points) (bytes : List UInt8) :
    lengthAfterPoint (bytes ++ [byte]) = lengthAfterPoint bytes + 1 := by
  simp [lengthAfterPoint, hother]

theorem lengthAfterPoint_le (bytes : List UInt8) : lengthAfterPoint bytes ≤ bytes.length := by
  have hle := (List.takeWhile_sublist (· ∉ points) : List.Sublist _ bytes.reverse).length_le
  rwa [List.length_reverse] at hle

end Append

/-- What has been read of the bytes. -/
structure Reads (base : Nat) (bytes : List UInt8) (digits : Digits) : Prop where
  value_eq : digits.value = UInt64.ofNat (valueIn base bytes)
  count_eq : digits.count = (digitsIn bytes).length
  pointed : Pointed bytes → digits.afterPoint.toInt = lengthAfterPoint bytes
  plain : ¬ Pointed bytes → digits.afterPoint = -1

namespace Reads

variable {base d : Nat} {byte : UInt8} {bytes : List UInt8} {digits : Digits}

theorem empty : Reads base [] empty where
  value_eq := rfl
  count_eq := rfl
  pointed := by simp [Pointed]
  plain _ := rfl

theorem toInt_succ {count : Cell} {n : Nat} (hcount : count.toInt = n) (hn : n + 1 < 2 ^ 31) :
    (count + 1).toInt = (n + 1 : Nat) := by
  rw [Int32.toInt_add, hcount]
  change ((n : Int) + 1).bmod (2 ^ 32) = _
  rw [Int.bmod_eq_of_le (by omega) (by omega)]
  rfl

variable (hreads : Reads base bytes digits)

include hreads

theorem digit (hdigit : digit? base byte = some d) (hlen : bytes.length + 1 < 2 ^ 31) :
    ∃ next, digits.next? base byte = some next ∧ Reads base (bytes ++ [byte]) next := by
  have hother := not_mem_points hdigit
  refine ⟨_, by rw [next?, hdigit], ?_, ?_, fun hpointed => ?_, fun hplain => ?_⟩
  · rw [valueIn_append_digit hdigit, UInt64.ofNat_add, UInt64.ofNat_mul, ← hreads.value_eq]
  · rw [digitsIn_append_digit hdigit, List.length_append, List.length_singleton, ← hreads.count_eq]
  · have hafter := hreads.pointed (((pointed_append bytes).1 hpointed).resolve_right hother)
    have hle := lengthAfterPoint_le bytes
    have hnonneg : 0 ≤ digits.afterPoint := by
      rw [Int32.le_iff_toInt_le, hafter]
      exact Int.natCast_nonneg _
    rw [lengthAfterPoint_append_other hother]
    simp only [if_pos hnonneg]
    exact toInt_succ hafter (by omega)
  · have hafter := hreads.plain fun hpointed => hplain ((pointed_append bytes).2 (.inl hpointed))
    simp only [hafter]
    rfl

theorem point (hpoint : byte ∈ points) :
    ∃ next, digits.next? base byte = some next ∧ Reads base (bytes ++ [byte]) next := by
  refine ⟨_, by rw [next?, digit?_point hpoint]; exact if_pos (isPoint_iff.2 hpoint), ?_, ?_, fun _ => ?_,
    fun hplain => ?_⟩
  · rw [valueIn, digitsIn_append_point hpoint]
    exact hreads.value_eq
  · rw [digitsIn_append_point hpoint]
    exact hreads.count_eq
  · rw [lengthAfterPoint_append_point hpoint]
    rfl
  · exact absurd ((pointed_append bytes).2 (.inr hpoint)) hplain

theorem has_digit (hlegal : Legal base bytes) (hcount : digits.count ≠ 0) : ∃ byte ∈ bytes, IsDigit base byte := by
  rw [hreads.count_eq] at hcount
  obtain ⟨d, hd⟩ := List.exists_mem_of_length_pos (Nat.pos_of_ne_zero hcount)
  obtain ⟨byte, hbyte, hvalue⟩ := List.mem_filterMap.1 hd
  refine ⟨byte, hbyte, (hlegal byte hbyte).resolve_right fun hpoint => ?_⟩
  rw [digitValue?_point hpoint] at hvalue
  cases hvalue

theorem count_ne_zero (hdigit : ∃ byte ∈ bytes, IsDigit base byte) : digits.count ≠ 0 := by
  obtain ⟨byte, hbyte, d, hd, -⟩ := hdigit
  rw [hreads.count_eq]
  exact Nat.ne_of_gt (List.length_pos_of_mem (List.mem_filterMap.2 ⟨byte, hbyte, hd⟩))

end Reads

theorem Digits.read?_append (base : Nat) (bytes : List UInt8) (byte : UInt8) :
    read? base (bytes ++ [byte]) = (read? base bytes).bind fun digits => digits.next? base byte := by
  rw [read?, List.foldlM_append]
  simp [read?]

theorem reads_of_legal {base : Nat} {bytes : List UInt8} (hlegal : Legal base bytes) (hlen : bytes.length < 2 ^ 31) :
    ∃ digits, Digits.read? base bytes = some digits ∧ Reads base bytes digits := by
  induction bytes using List.reverseRecOn with
  | nil => exact ⟨_, rfl, .empty⟩
  | append_singleton bytes byte ih =>
    rw [List.length_append, List.length_singleton] at hlen
    obtain ⟨digits, hread, hreads⟩ := ih (fun other hother => hlegal other (List.mem_append_left _ hother)) (by omega)
    have hbyte := hlegal byte (List.mem_append_right _ List.mem_cons_self)
    rw [read?_append, hread, Option.bind_some]
    rcases hbyte with hdigit | hpoint
    · obtain ⟨d, hd⟩ := isDigit_iff.1 hdigit
      exact hreads.digit hd hlen
    · exact hreads.point hpoint

theorem legal_of_read? {base : Nat} {bytes : List UInt8} {digits : Digits} (hread : Digits.read? base bytes = some digits) :
    Legal base bytes := by
  induction bytes using List.reverseRecOn generalizing digits with
  | nil => exact fun byte hbyte => absurd hbyte List.not_mem_nil
  | append_singleton bytes byte ih =>
    rw [read?_append, Option.bind_eq_some_iff] at hread
    obtain ⟨before, hbefore, hnext⟩ := hread
    refine List.forall_mem_append.2 ⟨ih hbefore, List.forall_mem_singleton.2 ?_⟩
    rw [next?] at hnext
    split at hnext
    · next d hdigit => exact .inl (isDigit_iff.2 ⟨d, hdigit⟩)
    · by_cases hpoint : isPoint byte = true
      · exact .inr (isPoint_iff.1 hpoint)
      · rw [if_neg hpoint] at hnext
        cases hnext

/-! ### Literals -/

/-- A base mark. -/
inductive BaseMark where
  | decimal | hexadecimal | binary
  deriving DecidableEq, Repr

namespace BaseMark

def base : BaseMark → Nat
  | decimal => 10
  | hexadecimal => 16
  | binary => 2

/-- One of `#`, `$` and `%`. -/
def byte : BaseMark → UInt8
  | decimal => 35
  | hexadecimal => 36
  | binary => 37

theorem markedBase?_byte (mark : BaseMark) : markedBase? mark.byte = some mark.base := by
  cases mark <;> rfl

theorem eq_byte_of_markedBase? {byte : UInt8} {base : Nat} (hmark : markedBase? byte = some base) :
    ∃ mark : BaseMark, byte = mark.byte ∧ base = mark.base := by
  rw [markedBase?] at hmark
  split at hmark
  · cases hmark
    exact ⟨decimal, ‹_›, rfl⟩
  split at hmark
  · cases hmark
    exact ⟨hexadecimal, ‹_›, rfl⟩
  split at hmark
  · cases hmark
    exact ⟨binary, ‹_›, rfl⟩
  · cases hmark

end BaseMark

/-- A number as it is written: whether a minus sign stands before the base mark, the mark, whether a minus sign stands
after it, and the digits and points. -/
structure Literal where
  before : Bool
  mark : Option BaseMark
  after : Bool
  rest : List UInt8

namespace Literal

/-- A minus sign, if there is one. -/
def sign (present : Bool) : List UInt8 := if present then [45] else []

def bytes (literal : Literal) : List UInt8 :=
  sign literal.before ++ (literal.mark.map BaseMark.byte).toList ++ sign literal.after ++ literal.rest

/-- The base of the digits: that of the mark, or the current one. -/
def baseIn (literal : Literal) (base : Nat) : Nat := (literal.mark.map BaseMark.base).getD base

def isNegative (literal : Literal) : Bool := literal.before || literal.after

/-- The exact value. -/
def value (literal : Literal) (base : Nat) : Int :=
  if literal.isNegative then -(valueIn (literal.baseIn base) literal.rest : Int)
  else valueIn (literal.baseIn base) literal.rest

/-- The literal is a number in the base: it has one sign at most, a minus sign that can be the sign is the sign and not
a point, and the rest is made of digits and points, with one digit at least. -/
structure WellFormed (literal : Literal) (base : Nat) : Prop where
  one_sign : literal.before = true → literal.after = false
  sign_first : literal.isNegative = false → literal.rest.head? ≠ some 45
  legal : Legal (literal.baseIn base) literal.rest
  has_digit : ∃ byte ∈ literal.rest, IsDigit (literal.baseIn base) byte

/-- The number that a literal is, and the count of digits after its last point. -/
structure Denotes (literal : Literal) (base : Nat) (number : Number) (pointCount : Cell) : Prop where
  double : Pointed literal.rest → ∃ value, number = .double value ∧
    value.toInt = (literal.value base).bmod (2 ^ 64) ∧ pointCount.toInt = lengthAfterPoint literal.rest
  single : ¬ Pointed literal.rest → ∃ value, number = .single value ∧
    value.toInt = (literal.value base).bmod (2 ^ 32) ∧ pointCount = -1

end Literal

/-! ### Taking a token apart -/

theorem plain_of_legal {base : Nat} {byte : UInt8} (hbyte : IsDigit base byte ∨ byte ∈ points) :
    byte ≠ 39 ∧ markedBase? byte = none := by
  rcases hbyte with ⟨d, hd, -⟩ | hpoint
  · exact (digitValue?_table byte).2.1 (by rw [hd]; rfl)
  · rcases mem_points.1 hpoint with rfl | rfl | rfl | rfl | rfl | rfl <;> decide

theorem takeMark_byte (mark : BaseMark) (bytes : List UInt8) : takeMark (mark.byte :: bytes) = (some mark.base, bytes) := by
  rw [takeMark, mark.markedBase?_byte]

theorem takeMark_of_legal {base : Nat} {bytes : List UInt8} (hlegal : Legal base bytes) : takeMark bytes = (none, bytes) := by
  cases bytes with
  | nil => rfl
  | cons byte rest => exact takeMark_of_none (plain_of_legal (hlegal byte List.mem_cons_self)).2 rest

namespace Literal

variable {literal : Literal} {base : Nat} {number : Number} {pointCount : Cell}

variable (hwell : literal.WellFormed base)

include hwell

theorem WellFormed.rest_ne_nil : literal.rest ≠ [] := by
  obtain ⟨byte, hbyte, -⟩ := hwell.has_digit
  exact List.ne_nil_of_mem hbyte

theorem WellFormed.unquoted (byte : UInt8) : literal.bytes ≠ [39, byte, 39] := by
  intro hquoted
  have hlast : literal.rest.getLast? = some 39 := by
    have hbytes := congrArg List.getLast? hquoted
    rwa [bytes, List.getLast?_append, Option.or_of_isSome (by simpa using hwell.rest_ne_nil)] at hbytes
  exact (plain_of_legal (hwell.legal 39 (List.mem_of_getLast? hlast))).1 rfl

/-- A literal is taken apart into its parts. -/
theorem WellFormed.readBytes?_eq :
    readBytes? base literal.bytes =
      Digits.result literal.isNegative (Digits.read? (literal.baseIn base) literal.rest) := by
  have hunquoted := hwell.unquoted
  have hrest := takeMark_of_legal hwell.legal
  have hone := hwell.one_sign
  have hfst := hwell.sign_first
  obtain ⟨before, mark, after, rest⟩ := literal
  cases before with
  | true =>
    obtain rfl : after = false := hone rfl
    cases mark with
    | none => exact readBytes?_of_parts hunquoted rfl hrest rfl
    | some mark => exact readBytes?_of_parts hunquoted rfl (takeMark_byte mark _) rfl
  | false =>
    cases mark with
    | none =>
      cases after with
      | true =>
        have hminus : takeMinus (45 :: rest) = (true, rest) := rfl
        exact (readBytes?_of_parts hunquoted hminus hrest rfl).trans rfl
      | false =>
        have hminus := takeMinus_of_head? (hfst rfl)
        exact readBytes?_of_parts hunquoted hminus hrest hminus
    | some mark =>
      have hmark (bytes : List UInt8) : takeMinus (mark.byte :: bytes) = (false, mark.byte :: bytes) := by
        refine takeMinus_of_head? ?_
        cases mark <;> simp [BaseMark.byte]
      cases after with
      | true => exact readBytes?_of_parts hunquoted (hmark _) (takeMark_byte mark _) rfl
      | false =>
        exact readBytes?_of_parts hunquoted (hmark _) (takeMark_byte mark _) (takeMinus_of_head? (hfst rfl))

end Literal

theorem eq_of_takeMinus {bytes rest : List UInt8} {minus : Bool} (htake : takeMinus bytes = (minus, rest)) :
    bytes = Literal.sign minus ++ rest ∧ (minus = false → rest.head? ≠ some 45) := by
  by_cases hhead : bytes.head? = some 45
  · obtain ⟨tail, rfl⟩ := List.head?_eq_some_iff.1 hhead
    cases htake
    exact ⟨rfl, nofun⟩
  · rw [takeMinus_of_head? hhead] at htake
    cases htake
    exact ⟨rfl, fun _ => hhead⟩

theorem eq_of_takeMark {bytes rest : List UInt8} {found : Option Nat} (htake : takeMark bytes = (found, rest)) :
    ∃ mark : Option BaseMark, found = mark.map BaseMark.base ∧ bytes = (mark.map BaseMark.byte).toList ++ rest := by
  cases bytes with
  | nil =>
    cases htake
    exact ⟨none, rfl, rfl⟩
  | cons byte bytes =>
    rw [takeMark] at htake
    split at htake
    · next base hmark =>
      cases htake
      obtain ⟨mark, rfl, rfl⟩ := BaseMark.eq_byte_of_markedBase? hmark
      exact ⟨some mark, rfl, rfl⟩
    · cases htake
      exact ⟨none, rfl, rfl⟩

theorem Digits.of_result_eq_some {negative : Bool} {found : Option Digits}
    (hres : result negative found = some answer) : ∃ digits, found = some digits ∧ digits.count ≠ 0 := by
  cases found with
  | none => cases hres
  | some digits =>
    refine ⟨digits, rfl, fun hzero => ?_⟩
    rw [result.eq_def] at hres
    simp only [if_pos hzero] at hres
    cases hres

/-- A token that is read as a number is a quoted byte or a literal. -/
theorem exists_literal {base : Nat} {bytes : List UInt8}
    (hlen : bytes.length < 2 ^ 31) (hquoted : ∀ byte, bytes ≠ [39, byte, 39])
    (hread : readBytes? base bytes = some answer) :
    ∃ literal : Literal, literal.WellFormed base ∧ bytes = literal.bytes := by
  obtain ⟨⟨before, unsigned⟩, hbefore⟩ : ∃ parts, takeMinus bytes = parts := ⟨_, rfl⟩
  obtain ⟨⟨found, unmarked⟩, hfound⟩ : ∃ parts, takeMark unsigned = parts := ⟨_, rfl⟩
  obtain ⟨⟨after, rest⟩, hafter⟩ : ∃ parts, (if before then (false, unmarked) else takeMinus unmarked) = parts := ⟨_, rfl⟩
  rw [readBytes?_of_parts hquoted hbefore hfound hafter] at hread
  obtain ⟨digits, hdigits, hcount⟩ := of_result_eq_some hread
  obtain ⟨mark, rfl, hunsigned⟩ := eq_of_takeMark hfound
  obtain ⟨hbytes, -⟩ := eq_of_takeMinus hbefore
  obtain ⟨hunmarked, hone, hhead⟩ : unmarked = Literal.sign after ++ rest ∧ (before = true → after = false) ∧
      ((before || after) = false → rest.head? ≠ some 45) := by
    cases before with
    | true =>
      cases hafter
      exact ⟨rfl, fun _ => rfl, nofun⟩
    | false =>
      obtain ⟨hrest, hhead⟩ := eq_of_takeMinus hafter
      exact ⟨hrest, nofun, hhead⟩
  have hbytes : bytes = Literal.bytes ⟨before, mark, after, rest⟩ := by
    rw [Literal.bytes, hbytes, hunsigned, hunmarked, List.append_assoc, List.append_assoc]
  have hrest : rest.length ≤ bytes.length := by
    rw [hbytes, Literal.bytes, List.length_append]
    exact Nat.le_add_left _ _
  have hlegal := legal_of_read? hdigits
  obtain ⟨_, hsame, hreads⟩ := reads_of_legal hlegal (by omega)
  obtain rfl := Option.some.inj (hdigits.symm.trans hsame)
  refine ⟨⟨before, mark, after, rest⟩, ⟨hone, hhead, hlegal, ?_⟩, hbytes⟩
  exact hreads.has_digit hlegal hcount

/-! ### The number -/

theorem toInt_double (negative : Bool) (n : Nat) :
    (if negative then -(UInt64.ofNat n).toInt64 else (UInt64.ofNat n).toInt64).toInt =
      (if negative then -(n : Int) else n).bmod (2 ^ 64) := by
  have hdouble : (UInt64.ofNat n).toInt64 = Int64.ofInt n := by rw [UInt64.toInt64_ofNat', Int64.ofInt_eq_ofNat]
  rw [hdouble]
  cases negative with
  | true => exact (congrArg Int64.toInt (Int64.ofInt_neg n).symm).trans Int64.toInt_ofInt
  | false => exact Int64.toInt_ofInt

theorem toInt_single (negative : Bool) (n : Nat) :
    (if negative then -(UInt64.ofNat n).toUInt32.toInt32 else (UInt64.ofNat n).toUInt32.toInt32).toInt =
      (if negative then -(n : Int) else n).bmod (2 ^ 32) := by
  have hcell : (UInt64.ofNat n).toUInt32.toInt32 = Int32.ofInt n := by
    rw [UInt64.toUInt32_ofNat', UInt32.toInt32_ofNat', Int32.ofInt_eq_ofNat]
  rw [hcell]
  cases negative with
  | true => exact (congrArg Int32.toInt (Int32.ofInt_neg n).symm).trans Int32.toInt_ofInt
  | false => exact Int32.toInt_ofInt

namespace Literal

variable {literal : Literal} {base : Nat}

theorem denotes_of_reads {digits : Digits} (hreads : Reads (literal.baseIn base) literal.rest digits) :
    literal.Denotes base (digits.number literal.isNegative) digits.afterPoint where
  double hpointed := by
    have hafter := hreads.pointed hpointed
    have hnonneg : 0 ≤ digits.afterPoint := by
      rw [Int32.le_iff_toInt_le, hafter]
      exact Int.natCast_nonneg _
    refine ⟨_, by rw [Digits.number, if_pos hnonneg], ?_, hafter⟩
    rw [hreads.value_eq]
    exact toInt_double _ _
  single hplain := by
    have hafter := hreads.plain hplain
    refine ⟨_, by rw [Digits.number, hafter]; rfl, ?_, hafter⟩
    rw [hreads.value_eq]
    exact toInt_single _ _

theorem WellFormed.exists_readBytes? (hwell : literal.WellFormed base) (hlen : literal.bytes.length < 2 ^ 31) :
    ∃ number pointCount, readBytes? base literal.bytes = some (number, pointCount) ∧
      literal.Denotes base number pointCount := by
  have hrest : literal.rest.length ≤ literal.bytes.length := by
    rw [bytes, List.length_append]
    exact Nat.le_add_left _ _
  obtain ⟨digits, hread, hreads⟩ := reads_of_legal hwell.legal (by omega)
  refine ⟨_, _, ?_, denotes_of_reads hreads⟩
  rw [hwell.readBytes?_eq, hread]
  exact if_neg (hreads.count_ne_zero hwell.has_digit)

end Literal

/-- A token is a number exactly if it is a byte between quotes, or an optional minus sign, an optional base mark, a
minus sign if there was none before, and digits and points with one digit at least. The quoted byte is the single with
its code. Any other number has the positional value of its digits, in the base of the mark if there is one: with a point
it is a double, cut to 64 bits, and the digits after the last point are counted, and without one a single, cut to 32
bits. -/
theorem read?_iff_grammar (base : Nat) (token : String) (hlength : (Utf8.encode token).length < 2 ^ 31) :
    ((read? base token).isSome = true ↔ (∃ byte, Utf8.encode token = [39, byte, 39]) ∨
      ∃ literal : Literal, literal.WellFormed base ∧ Utf8.encode token = literal.bytes) ∧
    (∀ byte, Utf8.encode token = [39, byte, 39] → ∃ value, read? base token = some (.single value, -1) ∧
      value.toInt = byte.toNat) ∧
    ∀ literal : Literal, literal.WellFormed base → Utf8.encode token = literal.bytes →
      ∃ number pointCount, read? base token = some (number, pointCount) ∧
        literal.Denotes base number pointCount := by
  have hquoted : ∀ byte, Utf8.encode token = [39, byte, 39] → ∃ value, read? base token = some (.single value, -1) ∧
      value.toInt = byte.toNat := by
    intro byte hbytes
    exact ⟨byte.toUInt32.toInt32, by rw [read?, hbytes]; rfl, (digitValue?_table byte).2.2⟩
  have hliteral : ∀ literal : Literal, literal.WellFormed base → Utf8.encode token = literal.bytes →
      ∃ number pointCount, read? base token = some (number, pointCount) ∧
        literal.Denotes base number pointCount := by
    intro literal hwell hbytes
    rw [read?, hbytes]
    exact hwell.exists_readBytes? (hbytes ▸ hlength)
  refine ⟨⟨fun hsome => ?_, ?_⟩, hquoted, hliteral⟩
  · obtain ⟨answer, hread⟩ := Option.isSome_iff_exists.1 hsome
    by_cases hbyte : ∃ byte, Utf8.encode token = [39, byte, 39]
    · exact .inl hbyte
    · exact .inr (exists_literal hlength (not_exists.1 hbyte) hread)
  · rintro (⟨byte, hbyte⟩ | ⟨literal, hwell, hbytes⟩)
    · obtain ⟨value, hread, -⟩ := hquoted byte hbyte
      rw [hread]
      rfl
    · obtain ⟨number, pointCount, hread, -⟩ := hliteral literal hwell hbytes
      rw [hread]
      rfl

/-- A sign after the mark, and more digits than a cell holds; and a second minus sign, which is a point. -/
theorem read?_iff_grammar_signs :
    let wide : Literal := ⟨false, some .hexadecimal, true, Utf8.encode "100000005"⟩
    let pointed : Literal := ⟨true, none, false, Utf8.encode "-1.2z"⟩
    (wide.WellFormed 10 ∧ wide.value 10 = -4294967301 ∧ ∃ number pointCount,
      read? 10 "$-100000005" = some (number, pointCount) ∧ wide.Denotes 10 number pointCount) ∧
    (pointed.WellFormed 36 ∧ pointed.value 36 = -1403 ∧ ∃ number pointCount,
      read? 36 "--1.2z" = some (number, pointCount) ∧ pointed.Denotes 36 number pointCount) := by
  have hwide : Literal.WellFormed ⟨false, some .hexadecimal, true, Utf8.encode "100000005"⟩ 10 :=
    ⟨by decide, by decide, by decide +kernel, by decide⟩
  have hpointed : Literal.WellFormed ⟨true, none, false, Utf8.encode "-1.2z"⟩ 36 :=
    ⟨by decide, by decide, by decide +kernel, by decide⟩
  exact ⟨⟨hwide, by decide, (read?_iff_grammar 10 "$-100000005" (by decide)).2.2 _ hwide (by decide)⟩,
    hpointed, by decide, (read?_iff_grammar 36 "--1.2z" (by decide)).2.2 _ hpointed (by decide)⟩

end ThreadedForth.Number
