
import Mathlib.Data.Rat.Floor
import Mathlib.Tactic.Linarith
import ThreadedForth.Proofs.Machine.Reachable
import ThreadedForth.Proofs.Structured.DataWords

/-!
# Division is exact or fails

What the eight words that divide give, said with the rational quotient. There are three ways to round it, and for each
of them one remainder. A word fails if the divisor is zero or if the rounded quotient does not fit its cell, and gives
remainder and quotient otherwise. The product of two cells and a double made of two cells are dividends of their own,
so that a product may be kept or divided at once.
-/

namespace ThreadedForth

open DoubleCell Items Layout

variable {n d q r : Int} {m : Machine} {word : DivisionWord} {rest : Items}

/-! ### Cells and doubles without a sign -/

theorem Cell.toNat_eq_zero_iff {value : Cell} : value.toUInt32.toNat = 0 ↔ value = 0 := by
  refine ⟨fun hzero => ?_, fun hzero => by rw [hzero]; rfl⟩
  have hbits : value.toUInt32 = (0 : Cell).toUInt32 := UInt32.toNat_inj.1 hzero
  exact Int32.toBitVec_inj.1 (congrArg UInt32.toBitVec hbits)

namespace DoubleCell

theorem toBitVec_join (low high : Cell) : (join low high).toBitVec = high.toBitVec ++ low.toBitVec := by
  apply BitVec.eq_of_getLsbD_eq
  intro i hi
  simp only [join, Int64.toBitVec_or, Int64.toBitVec_shiftLeft, Int32.toBitVec_toInt64, Int64.toBitVec_ofNat,
    BitVec.ofNat_eq_ofNat, BitVec.reduceSMod, BitVec.toNat_ofNat, Nat.reducePow, Nat.reduceMod, BitVec.shiftLeft_eq',
    UInt64.toBitVec_toInt64, UInt32.toBitVec_toUInt64, Int32.toBitVec_toUInt32, BitVec.getLsbD_or,
    BitVec.getLsbD_shiftLeft, BitVec.getLsbD_signExtend, BitVec.getLsbD_setWidth, BitVec.getLsbD_append]
  grind

theorem toInt_join (low high : Cell) : (join low high).toInt = high.toInt * 2 ^ 32 + low.toUInt32.toNat := by
  have happend : (join low high).toInt = (high.toBitVec ++ low.toBitVec).toInt :=
    congrArg BitVec.toInt (toBitVec_join low high)
  rw [happend, BitVec.toInt_append, if_neg (by decide), Int.mul_comm]
  rfl

theorem toNat_join (low high : Cell) :
    (join low high).toUInt64.toNat = high.toUInt32.toNat * 2 ^ 32 + low.toUInt32.toNat := by
  have happend : (join low high).toUInt64.toNat = (high.toBitVec ++ low.toBitVec).toNat :=
    congrArg BitVec.toNat (toBitVec_join low high)
  rw [happend, BitVec.toNat_append, ← Nat.shiftLeft_add_eq_or_of_lt low.toBitVec.isLt, Nat.shiftLeft_eq]
  rfl

end DoubleCell

namespace Division

/-! ### Rounding -/

/-- How a quotient is rounded: down, toward zero, or down with all numbers read without a sign. -/
inductive Rounding where
  | floored
  | symmetric
  | unsigned
  deriving DecidableEq, Repr

namespace Rounding

/-- The number that a cell stands for. -/
def value : Rounding → Cell → Int
  | unsigned, cell => cell.toUInt32.toNat
  | _, cell => cell.toInt

/-- The number that a double stands for, from its low and its high cell. -/
def doubleValue (rounding : Rounding) (low high : Cell) : Int := rounding.value high * 2 ^ 32 + low.toUInt32.toNat

/-- The number fits a cell. -/
def Fits : Rounding → Int → Prop
  | unsigned, n => 0 ≤ n ∧ n < 2 ^ 32
  | _, n => -2 ^ 31 ≤ n ∧ n < 2 ^ 31

/-- The rational quotient, rounded. -/
def quotient : Rounding → Int → Int → Int
  | symmetric, n, d => if 0 ≤ (n : ℚ) / d then ⌊(n : ℚ) / d⌋ else ⌈(n : ℚ) / d⌉
  | _, n, d => ⌊(n : ℚ) / d⌋

/-- The sign that a remainder may have. -/
def Signed : Rounding → Int → Int → Int → Prop
  | floored, _, d, r => r = 0 ∨ r.sign = d.sign
  | symmetric, n, _, r => r = 0 ∨ r.sign = n.sign
  | unsigned, _, _, r => 0 ≤ r

end Rounding

/-- Quotient and remainder of an exact division. -/
structure Exact (rounding : Rounding) (n d q r : Int) : Prop where
  quotient_eq : q = rounding.quotient n d
  dividend_eq : n = q * d + r
  small : |r| < |d|
  signed : rounding.Signed n d r

theorem floor_div_eq (hn : n = q * d + r) (hr : 0 ≤ r ∧ r < d ∨ d < r ∧ r ≤ 0) : ⌊(n : ℚ) / d⌋ = q := by
  have hcast : (n : ℚ) = q * d + r := by exact_mod_cast hn
  rw [Int.floor_eq_iff, hcast]
  rcases hr with ⟨hlow, hhigh⟩ | ⟨hlow, hhigh⟩
  · have hpos : (0 : ℚ) < d := by exact_mod_cast (by omega : 0 < d)
    have hlow : (0 : ℚ) ≤ r := by exact_mod_cast hlow
    have hhigh : (r : ℚ) < d := by exact_mod_cast hhigh
    rw [le_div_iff₀ hpos, div_lt_iff₀ hpos]
    constructor <;> linarith
  · have hneg : (d : ℚ) < 0 := by exact_mod_cast (by omega : d < 0)
    have hlow : (d : ℚ) < r := by exact_mod_cast hlow
    have hhigh : (r : ℚ) ≤ 0 := by exact_mod_cast hhigh
    rw [le_div_iff_of_neg hneg, div_lt_iff_of_neg hneg]
    constructor <;> linarith

theorem ceil_div_eq (hn : n = q * d + r) (hr : 0 ≤ -r ∧ -r < d ∨ d < -r ∧ -r ≤ 0) :
    ⌈(n : ℚ) / d⌉ = q := by
  have hfloor : ⌊((-n : Int) : ℚ) / d⌋ = -q := floor_div_eq (by rw [hn]; ring) hr
  rw [Int.cast_neg, neg_div, Int.floor_neg] at hfloor
  omega

theorem div_nonneg_iff_of_ne (hd : d ≠ 0) : 0 ≤ (n : ℚ) / d ↔ 0 ≤ n ∧ 0 < d ∨ n ≤ 0 ∧ d < 0 := by
  have hd : (d : ℚ) ≠ 0 := by exact_mod_cast hd
  rw [div_nonneg_iff]
  norm_cast
  omega

variable {n d : Int}

theorem exact_floored (hd : d ≠ 0) : Exact .floored n d (n.fdiv d) (n.fmod d) := by
  have hdef : n = n.fdiv d * d + n.fmod d := by rw [Int.mul_comm, Int.mul_fdiv_add_fmod]
  have hrange : 0 ≤ n.fmod d ∧ n.fmod d < d ∨ d < n.fmod d ∧ n.fmod d ≤ 0 := by
    rcases Int.lt_or_gt_of_ne hd with hneg | hpos
    · have hflip := Int.neg_fmod_neg n d
      have hlow := Int.fmod_nonneg_of_pos (-n) (by omega : 0 < -d)
      have hhigh := Int.fmod_lt_of_pos (-n) (by omega : 0 < -d)
      omega
    · exact .inl ⟨Int.fmod_nonneg_of_pos n hpos, Int.fmod_lt_of_pos n hpos⟩
  refine ⟨(floor_div_eq hdef hrange).symm, hdef, by grind, ?_⟩
  rcases hrange with ⟨hlow, hhigh⟩ | ⟨hlow, hhigh⟩
  · rcases hlow.eq_or_lt with hzero | hpos
    · exact .inl hzero.symm
    · exact .inr (by rw [Int.sign_eq_one_of_pos hpos, Int.sign_eq_one_of_pos (by omega)])
  · rcases hhigh.eq_or_lt with hzero | hneg
    · exact .inl hzero
    · exact .inr (by rw [Int.sign_eq_neg_one_of_neg hneg, Int.sign_eq_neg_one_of_neg (by omega)])

theorem exact_symmetric (hd : d ≠ 0) : Exact .symmetric n d (n.tdiv d) (n.tmod d) := by
  have hdef : n = n.tdiv d * d + n.tmod d := by rw [Int.mul_comm, Int.add_comm, Int.tmod_add_mul_tdiv]
  have hsmall : (n.tmod d).natAbs < d.natAbs := by
    rw [Int.natAbs_tmod]
    exact Nat.mod_lt _ (Int.natAbs_pos.2 hd)
  have hsign : 0 ≤ n ∧ 0 ≤ n.tmod d ∨ n ≤ 0 ∧ n.tmod d ≤ 0 := by
    rcases Int.le_total 0 n with hpos | hneg
    · exact .inl ⟨hpos, Int.tmod_nonneg d hpos⟩
    · have hflip := Int.tmod_nonneg d (Int.neg_nonneg_of_nonpos hneg)
      rw [Int.neg_tmod] at hflip
      exact .inr ⟨hneg, by omega⟩
  have hless : |n.tmod d| < |d| := by rwa [Int.abs_eq_natAbs, Int.abs_eq_natAbs, Int.ofNat_lt]
  refine ⟨?_, hdef, hless, ?_⟩
  · rw [Rounding.quotient]
    split
    · next hquot =>
      rw [div_nonneg_iff_of_ne hd] at hquot
      rw [floor_div_eq hdef]
      have hzero : n = 0 → n.tmod d = 0 := by
        rintro rfl
        exact Int.zero_tmod d
      omega
    · next hquot =>
      rw [div_nonneg_iff_of_ne hd] at hquot
      rw [ceil_div_eq hdef]
      omega
  · rcases hsign with ⟨hn, hr⟩ | ⟨hn, hr⟩
    · rcases hr.eq_or_lt with hzero | hpos
      · exact .inl hzero.symm
      · have hpositive : 0 < n := hn.lt_of_ne (by rintro rfl; simp at hpos)
        exact .inr (by rw [Int.sign_eq_one_of_pos hpos, Int.sign_eq_one_of_pos hpositive])
    · rcases hr.eq_or_lt with hzero | hneg
      · exact .inl hzero
      · have hnegative : n < 0 := hn.lt_of_ne (by rintro rfl; simp at hneg)
        exact .inr (by rw [Int.sign_eq_neg_one_of_neg hneg, Int.sign_eq_neg_one_of_neg hnegative])

theorem exact_unsigned {n d : Nat} (hd : d ≠ 0) : Exact .unsigned n d (n / d : Nat) (n % d : Nat) := by
  have hdef : (n : Int) = (n / d : Nat) * d + (n % d : Nat) := by exact_mod_cast (Nat.div_add_mod' n d).symm
  have hlt := Nat.mod_lt n (Nat.pos_of_ne_zero hd)
  exact ⟨(floor_div_eq hdef (.inl ⟨Int.natCast_nonneg _, by exact_mod_cast hlt⟩)).symm, hdef, by
    rw [Nat.abs_cast, Nat.abs_cast]
    exact_mod_cast hlt, Int.natCast_nonneg _⟩

/-! ### Results in cells -/

/-- The outcome of a division whose results must fit cells, the remainder given first. -/
structure Divides (rounding : Rounding) (n d : Int) (result : Except Fault (Cell × Cell)) : Prop where
  zero : d = 0 → result = .error .divisionByZero
  large : d ≠ 0 → ¬ rounding.Fits (rounding.quotient n d) → result = .error .outOfRange
  remainder_fits : d ≠ 0 → rounding.Fits (n - rounding.quotient n d * d)
  exact_ : d ≠ 0 → rounding.Fits (rounding.quotient n d) →
    ∃ r q, result = .ok (r, q) ∧ Exact rounding n d (rounding.value q) (rounding.value r)

theorem toCell_of_fits (hn : -2 ^ 31 ≤ n ∧ n < 2 ^ 31) : toCell n = .ok (Int32.ofInt n) := if_pos hn

theorem toCell_of_not_fits (hn : ¬ (-2 ^ 31 ≤ n ∧ n < 2 ^ 31)) : toCell n = .error .outOfRange := if_neg hn

theorem Exact.remainder_fits {rounding : Rounding} {d : Cell} (hexact : Exact rounding n d.toInt q r) :
    -2 ^ 31 ≤ r ∧ r < 2 ^ 31 := by
  have hsmall := hexact.small
  have hlow := d.le_toInt
  have hhigh := d.toInt_lt
  grind

theorem divides_of_exact {rounding : Rounding} (hsigned : rounding ≠ .unsigned) {d : Cell}
    {result : Except Fault (Int × Int)} (hzero : d.toInt = 0 → result = .error .divisionByZero)
    (hexact : d.toInt ≠ 0 → ∃ r q, result = .ok (r, q) ∧ Exact rounding n d.toInt q r) :
    Divides rounding n d.toInt (toCells result) := by
  have hfits (k : Int) : rounding.Fits k ↔ -2 ^ 31 ≤ k ∧ k < 2 ^ 31 := by cases rounding <;> first | rfl | contradiction
  have hvalue (k : Int) (hk : -2 ^ 31 ≤ k ∧ k < 2 ^ 31) : rounding.value (Int32.ofInt k) = k := by
    cases rounding <;> first | exact Int32.toInt_ofInt_of_le hk.1 hk.2 | contradiction
  refine ⟨fun hd => by rw [hzero hd]; rfl, fun hd hlarge => ?_, fun hd => ?_, fun hd hfit => ?_⟩ <;>
    obtain ⟨r, q, rfl, hqr⟩ := hexact hd
  · rw [hfits, ← hqr.quotient_eq] at hlarge
    simp only [toCells, bind, Except.bind, toCell_of_fits hqr.remainder_fits, toCell_of_not_fits hlarge]
  · have hremainder : n - rounding.quotient n d.toInt * d.toInt = r := by
      have hdividend := hqr.dividend_eq
      rw [← hqr.quotient_eq]
      omega
    rw [hfits, hremainder]
    exact hqr.remainder_fits
  · rw [hfits, ← hqr.quotient_eq] at hfit
    refine ⟨Int32.ofInt r, Int32.ofInt q, ?_, ?_⟩
    · simp only [toCells, bind, Except.bind, toCell_of_fits hqr.remainder_fits, toCell_of_fits hfit]
      rfl
    · rwa [hvalue q hfit, hvalue r hqr.remainder_fits]

theorem divides_floored (n : Int) (d : Cell) : Divides .floored n d.toInt (toCells (floored n d.toInt)) :=
  divides_of_exact (by decide) (fun hd => if_pos hd) fun hd => ⟨n.fmod d.toInt, n.fdiv d.toInt, if_neg hd, exact_floored hd⟩

theorem divides_symmetric (n : Int) (d : Cell) : Divides .symmetric n d.toInt (toCells (symmetric n d.toInt)) :=
  divides_of_exact (by decide) (fun hd => if_pos hd) fun hd => ⟨n.tmod d.toInt, n.tdiv d.toInt, if_neg hd, exact_symmetric hd⟩

theorem toNat_ofNat_cell {n : Nat} (hn : n < 2 ^ 32) : (Cell.ofNat n).toUInt32.toNat = n := by
  have hnat : (Cell.ofNat n).toUInt32.toNat = n % 2 ^ 32 := rfl
  rw [hnat, Nat.mod_eq_of_lt hn]

theorem unsigned_fits_natCast (n : Nat) : Rounding.unsigned.Fits n ↔ n < 2 ^ 32 := by
  rw [Rounding.Fits]
  omega

theorem divides_unsigned (n : UInt64) (d : UInt32) : Divides .unsigned n.toNat d.toNat (unsigned n d) := by
  have hzero : d = 0 ↔ (d.toNat : Int) = 0 := by
    rw [Int.natCast_eq_zero, ← UInt32.toNat_inj]
    rfl
  have hexact (hd : (d.toNat : Int) ≠ 0) := @exact_unsigned n.toNat d.toNat (by exact_mod_cast hd)
  have hremainder (hd : (d.toNat : Int) ≠ 0) : n.toNat % d.toNat < 2 ^ 32 :=
    Nat.lt_trans (Nat.mod_lt _ (Nat.pos_of_ne_zero (by exact_mod_cast hd))) d.toNat_lt
  have hquot (hd : (d.toNat : Int) ≠ 0) :
      Rounding.unsigned.Fits (Rounding.unsigned.quotient n.toNat d.toNat) ↔ n.toNat / d.toNat < 2 ^ 32 := by
    rw [← (hexact hd).quotient_eq, unsigned_fits_natCast]
  refine ⟨fun hd => if_pos (hzero.2 hd), fun hd hlarge => ?_, fun hd => ?_, fun hd hfit => ?_⟩
  · rw [hquot hd] at hlarge
    rw [unsigned, if_neg (hzero.not.2 hd)]
    exact if_neg hlarge
  · have hdividend := (hexact hd).dividend_eq
    rw [← (hexact hd).quotient_eq, sub_eq_of_eq_add' hdividend, unsigned_fits_natCast]
    exact hremainder hd
  · rw [hquot hd] at hfit
    refine ⟨_, _, (if_neg (hzero.not.2 hd)).trans (if_pos hfit), ?_⟩
    simp only [Rounding.value, toNat_ofNat_cell hfit, toNat_ofNat_cell (hremainder hd)]
    exact hexact hd

/-- The quotient of a double without a sign fits a cell just if the high cell is below the divisor. -/
theorem unsigned_fits_iff {low high d : Nat} (hlow : low < 2 ^ 32) (hd : d ≠ 0) :
    Rounding.unsigned.Fits (Rounding.unsigned.quotient ((high * 2 ^ 32 + low : Nat) : Int) d) ↔ high < d := by
  rw [← (exact_unsigned hd).quotient_eq, unsigned_fits_natCast, Nat.div_lt_iff_lt_mul (Nat.pos_of_ne_zero hd)]
  omega

end Division

/-! ### Words that divide -/

open WordM Division

/-- The action ends as told: with these items on the data stack, or in the fault. -/
def Machine.Yields (m : Machine) (action : WordM Unit) : Except Fault Items → Prop
  | .ok items => ∃ after, action m = .ok () after ∧ after.data.Carries after.memory items
  | .error fault => ∃ after, action m = .error fault after

theorem Denotes.yields {action : WordM Unit} {meaning : StackM Unit} (hdenotes : Denotes action meaning)
    (hb : m.Bounded) {items : Items} (hitems : m.data.Carries m.memory items) :
    m.Yields action ((meaning items).map Prod.snd) := by
  obtain ⟨returns, hret⟩ := hb.returns.exists_carries m.memory
  have hplays := hdenotes m ⟨m.ip, items, returns⟩ m ⟨hb, rfl, .refl _ _, hitems, hret⟩
  rw [StackM.onThread] at hplays
  cases hmeaning : meaning items with
  | ok part =>
    rw [hmeaning] at hplays
    obtain ⟨after, hok, hfol⟩ := hplays
    exact ⟨after, hok, hfol.items⟩
  | error fault =>
    rw [hmeaning] at hplays
    exact hplays

/-- The words that divide. -/
inductive DivisionWord where
  | slash | mod | slashMod | starSlash | starSlashMod | fmSlashMod | smSlashRem | umSlashMod
  deriving DecidableEq, Repr

namespace DivisionWord

def data : DivisionWord → DataWord
  | slash => .cell .slash
  | mod => .cell .mod
  | slashMod => .cell .slashMod
  | starSlash => .cell .starSlash
  | starSlashMod => .cell .starSlashMod
  | fmSlashMod => .double .fmSlashMod
  | smSlashRem => .double .smSlashRem
  | umSlashMod => .double .umSlashMod

def perform (word : DivisionWord) : WordM Unit := word.data.perform

def rounding : DivisionWord → Rounding
  | smSlashRem => .symmetric
  | umSlashMod => .unsigned
  | _ => .floored

/-- Dividend and divisor, and the items below them. -/
def operands : DivisionWord → Items → Option (Int × Int × Items)
  | slash, d :: n :: rest | mod, d :: n :: rest | slashMod, d :: n :: rest => some (n.toInt, d.toInt, rest)
  | starSlash, d :: b :: a :: rest | starSlashMod, d :: b :: a :: rest => some (a.toInt * b.toInt, d.toInt, rest)
  | fmSlashMod, d :: high :: low :: rest => some (Rounding.floored.doubleValue low high, d.toInt, rest)
  | smSlashRem, d :: high :: low :: rest => some (Rounding.symmetric.doubleValue low high, d.toInt, rest)
  | umSlashMod, d :: high :: low :: rest => some (Rounding.unsigned.doubleValue low high, d.toUInt32.toNat, rest)
  | _, _ => none

/-- What is left of remainder and quotient, the top item first. -/
def results : DivisionWord → Cell → Cell → Items
  | slash, _, q | starSlash, _, q => [q]
  | mod, r, _ => [r]
  | _, r, q => [q, r]

variable {items rest : Items} {n d : Int}

theorem effect_eq (hoperands : word.operands items = some (n, d, rest)) :
    ∃ result, Divides word.rounding n d result ∧
      word.data.effect items = do let (r, q) ← result; return word.results r q ++ rest := by
  match word, items, hoperands with
  | slash, d :: n :: rest, rfl | mod, d :: n :: rest, rfl | slashMod, d :: n :: rest, rfl =>
    exact ⟨_, divides_floored n.toInt d, rfl⟩
  | starSlash, d :: b :: a :: rest, rfl | starSlashMod, d :: b :: a :: rest, rfl =>
    exact ⟨_, divides_floored (a.toInt * b.toInt) d, rfl⟩
  | fmSlashMod, d :: high :: low :: rest, rfl =>
    have hdivides := divides_floored (join low high).toInt d
    exact ⟨_, by rwa [toInt_join] at hdivides, by rw [← toInt_join]; rfl⟩
  | smSlashRem, d :: high :: low :: rest, rfl =>
    have hdivides := divides_symmetric (join low high).toInt d
    exact ⟨_, by rwa [toInt_join] at hdivides, by rw [← toInt_join]; rfl⟩
  | umSlashMod, d :: high :: low :: rest, rfl =>
    refine ⟨_, ?_, rfl⟩
    have hdouble : ((join low high).toUInt64.toNat : Int) = Rounding.unsigned.doubleValue low high := by
      rw [toNat_join]
      rfl
    exact hdouble ▸ divides_unsigned (join low high).toUInt64 d.toUInt32

end DivisionWord

/-! ### Products that are divided -/

theorem toInt_mul_cells (a b : Cell) : (a.toInt64 * b.toInt64).toInt = a.toInt * b.toInt := by
  have hproduct : |a.toInt * b.toInt| ≤ 2 ^ 31 * 2 ^ 31 := by
    rw [abs_mul]
    exact mul_le_mul (abs_le.2 ⟨a.le_toInt, a.toInt_lt.le⟩) (abs_le.2 ⟨b.le_toInt, b.toInt_lt.le⟩) (abs_nonneg _) (by decide)
  rw [abs_le] at hproduct
  rw [Int64.toInt_mul, Int32.toInt_toInt64, Int32.toInt_toInt64, Int.bmod_eq_of_le] <;> omega

theorem toNat_mul_cells (a b : Cell) :
    (a.toUInt32.toUInt64 * b.toUInt32.toUInt64).toInt64.toUInt64.toNat = a.toUInt32.toNat * b.toUInt32.toNat := by
  have hproduct : a.toUInt32.toNat * b.toUInt32.toNat < 2 ^ 32 * 2 ^ 32 :=
    Nat.mul_lt_mul'' a.toUInt32.toNat_lt b.toUInt32.toNat_lt
  rw [UInt64.toUInt64_toInt64, UInt64.toNat_mul, UInt32.toNat_toUInt64, UInt32.toNat_toUInt64,
    Nat.mod_eq_of_lt (by omega)]

namespace StackM

variable {items : Items}

theorem push_bind_of_full {α : Type} {rest : Unit → StackM α} (value : Cell) (hfull : dataCells ≤ items.length) :
    (push value >>= rest) items = .error (.stackOverflow .data) := by
  change (push value items >>= fun part => rest part.1 part.2) = _
  rw [push, ofEffect, Items.push, if_neg (by omega)]
  rfl

theorem effect_bind {α : Type} {effect : Items → Except Fault Items} {rest : Unit → StackM α} {after : Items}
    (heffect : effect items = .ok after) : (ofEffect effect >>= rest) items = rest () after := by
  change ((effect items >>= _) >>= _) = _
  rw [heffect]
  rfl

/-- A product may be made first and divided afterwards. The stack overflows for both or for neither. -/
theorem starSlashMod_eq (a b c : Cell) (items : Items) :
    (do push a; push b; push c; ofEffect (CellWord.effect .starSlashMod) : StackM Unit) items =
      (do
        push a; push b; ofEffect (DoubleWord.effect .mStar); push c
        ofEffect (DoubleWord.effect .fmSlashMod) : StackM Unit) items := by
  by_cases hfst : dataCells ≤ items.length
  · rw [push_bind_of_full a hfst, push_bind_of_full a hfst]
  rw [push_bind a (by omega), push_bind a (by omega)]
  by_cases hsnd : dataCells ≤ (a :: items).length
  · rw [push_bind_of_full b hsnd, push_bind_of_full b hsnd]
  have hmultiply : DoubleWord.effect .mStar (b :: a :: items) = .ok (double (a.toInt64 * b.toInt64) items) := rfl
  have hlen : (double (a.toInt64 * b.toInt64) items).length = (b :: a :: items).length := rfl
  rw [push_bind b (by omega), push_bind b (by omega), effect_bind hmultiply]
  by_cases hthird : dataCells ≤ (b :: a :: items).length
  · rw [push_bind_of_full c hthird, push_bind_of_full c (hlen ▸ hthird)]
  rw [push_bind c (by omega), push_bind c (by omega)]
  have hproduct : DoubleWord.effect .fmSlashMod (c :: double (a.toInt64 * b.toInt64) items) = do
      let (r, q) ← toCells (floored (join (DoubleCell.low (a.toInt64 * b.toInt64))
        (DoubleCell.high (a.toInt64 * b.toInt64))).toInt c.toInt)
      return q :: r :: items := rfl
  rw [ofEffect, ofEffect, hproduct, join_low_high, toInt_mul_cells]
  rfl

theorem umStar_umSlashMod_eq (a : Cell) {b : Cell} (hb : b ≠ 0) (hroom : items.length + 3 ≤ dataCells) :
    (do
      push a; push b; ofEffect (DoubleWord.effect .umStar); push b
      ofEffect (DoubleWord.effect .umSlashMod) : StackM Unit) items = .ok ((), a :: 0 :: items) := by
  have hmultiply : DoubleWord.effect .umStar (b :: a :: items) =
      .ok (double (a.toUInt32.toUInt64 * b.toUInt32.toUInt64).toInt64 items) := rfl
  have hlen : (double (a.toUInt32.toUInt64 * b.toUInt32.toUInt64).toInt64 items).length = items.length + 2 :=
    rfl
  rw [push_bind a (by omega), push_bind b (by rw [List.length_cons]; omega), effect_bind hmultiply,
    push_bind b (by omega)]
  have hproduct : DoubleWord.effect .umSlashMod
      (b :: double (a.toUInt32.toUInt64 * b.toUInt32.toUInt64).toInt64 items) = do
      let (r, q) ← unsigned (join (DoubleCell.low (a.toUInt32.toUInt64 * b.toUInt32.toUInt64).toInt64)
        (DoubleCell.high (a.toUInt32.toUInt64 * b.toUInt32.toUInt64).toInt64)).toUInt64 b.toUInt32
      return q :: r :: items := rfl
  have hpositive : 0 < b.toUInt32.toNat := Nat.pos_of_ne_zero fun hzero => hb (Cell.toNat_eq_zero_iff.1 hzero)
  have hdivisor : b.toUInt32 ≠ 0 := fun hzero => by simp [hzero] at hpositive
  have hquot : unsigned (a.toUInt32.toUInt64 * b.toUInt32.toUInt64).toInt64.toUInt64 b.toUInt32 = .ok (0, a) := by
    rw [unsigned, if_neg hdivisor, toNat_mul_cells, Nat.mul_mod_left, Nat.mul_div_cancel _ hpositive]
    have hcell : Cell.ofNat a.toUInt32.toNat = a := Int32.toBitVec_inj.1 (BitVec.ofNat_toNat 32 a.toBitVec)
    exact (if_pos a.toUInt32.toNat_lt).trans (by rw [hcell]; rfl)
  rw [ofEffect, hproduct, join_low_high, hquot]
  rfl

end StackM

/-! ### All words that divide -/

theorem DivisionWord.yields (hb : m.Bounded) {items : Items}
    (hitems : m.data.Carries m.memory items)
    (hoperands : word.operands items = some (n, d, rest)) :
    ∃ result, Divides word.rounding n d result ∧
      m.Yields word.perform (do let (r, q) ← result; return word.results r q ++ rest) := by
  obtain ⟨result, hdivides, heffect⟩ := effect_eq hoperands
  have hyields := word.data.denotes_perform.yields hb hitems
  rw [StackM.ofEffect, heffect] at hyields
  refine ⟨result, hdivides, ?_⟩
  cases result <;> exact hyields

theorem Machine.Yields.error_iff {action : WordM Unit} {outcome : Except Fault Items}
    (hyields : m.Yields action outcome) (fault : Fault) :
    (∃ after, action m = .error fault after) ↔ outcome = .error fault := by
  cases outcome with
  | ok items =>
    obtain ⟨_, hok, -⟩ := hyields
    simp [hok]
  | error other =>
    obtain ⟨_, herror⟩ := hyields
    simp [herror]

/-- The word fails if the divisor is zero or the rounded quotient does not fit a cell, and divides otherwise. -/
structure DivisionWord.ExactOrFails (word : DivisionWord) (n d : Int) (rest : Items) (m : Machine) : Prop where
  zero_iff : (∃ after, word.perform m = .error .divisionByZero after) ↔ d = 0
  range_iff : (∃ after, word.perform m = .error .outOfRange after) ↔
    d ≠ 0 ∧ ¬ word.rounding.Fits (word.rounding.quotient n d)
  remainder_fits : d ≠ 0 → word.rounding.Fits (n - word.rounding.quotient n d * d)
  exact_ : d ≠ 0 → word.rounding.Fits (word.rounding.quotient n d) →
    ∃ r q, Exact word.rounding n d (word.rounding.value q) (word.rounding.value r) ∧
      m.Yields word.perform (.ok (word.results r q ++ rest))

namespace DivisionWord

variable {m : Machine} (hb : m.Bounded) {items : Items}
  (hitems : m.data.Carries m.memory items)

include hb hitems

theorem exactOrFails
    (hoperands : word.operands items = some (n, d, rest)) : word.ExactOrFails n d rest m := by
  obtain ⟨result, hdivides, hyields⟩ := yields hb hitems hoperands
  have hzero := hyields.error_iff .divisionByZero
  have hrange := hyields.error_iff .outOfRange
  by_cases hd : d = 0
  · cases hdivides.zero hd
    exact ⟨hzero.trans (by simp [hd, bind, Except.bind]), hrange.trans (by simp [hd, bind, Except.bind]),
      fun hne => absurd hd hne, fun hne => absurd hd hne⟩
  by_cases hfits : word.rounding.Fits (word.rounding.quotient n d)
  · obtain ⟨r, q, rfl, hexact⟩ := hdivides.exact_ hd hfits
    exact ⟨hzero.trans (by simp [hd, bind, Except.bind, pure, Except.pure]),
      hrange.trans (by simp [hfits, bind, Except.bind, pure, Except.pure]), hdivides.remainder_fits,
      fun _ _ => ⟨r, q, hexact, hyields⟩⟩
  · cases hdivides.large hd hfits
    exact ⟨hzero.trans (by simp [hd, bind, Except.bind]), hrange.trans (by simp [hd, hfits, bind, Except.bind]),
      hdivides.remainder_fits, fun _ hfit => absurd hfit hfits⟩

theorem umSlashMod_range_iff {d high low : Cell} (hthree : items = d :: high :: low :: rest) :
    (∃ after, umSlashMod.perform m = .error .outOfRange after) ↔ d ≠ 0 ∧ d.toUInt32 ≤ high.toUInt32 := by
  have hoperands : umSlashMod.operands items =
      some (Rounding.unsigned.doubleValue low high, (d.toUInt32.toNat : Int), rest) := by rw [hthree]; rfl
  have hdivisor : (d.toUInt32.toNat : Int) ≠ 0 ↔ d ≠ 0 :=
    Int.natCast_ne_zero.trans (not_congr Cell.toNat_eq_zero_iff)
  rw [(exactOrFails hb hitems hoperands).range_iff, hdivisor]
  refine and_congr_right fun hd => ?_
  rw [UInt32.le_iff_toNat_le, ← Nat.not_lt]
  exact not_congr (unsigned_fits_iff low.toUInt32.toNat_lt (Int.natCast_ne_zero.1 (hdivisor.2 hd)))

end DivisionWord

end ThreadedForth
