import Mathlib.Algebra.Order.Field.Power
import Mathlib.Algebra.Order.Round
import Mathlib.Data.Int.Log
import Mathlib.Data.Rat.Floor
import Mathlib.Tactic.Linarith
import Mathlib.Tactic.Ring

/-!
# Binary64

IEEE 754 double precision numbers as exact rationals, with the infinities and NaN.  An
operation rounds the exact result to the nearest number, ties to the one whose last digit
is even.  The sign of zero is left out: neither an order nor a conversion to an integer
shows it.

Rounding is monotone, and exact on the numbers of at most 53 binary digits.
-/

namespace Conduit.Binary64

/-! ## Rounding to integers -/

/-- The nearest integer, ties to even. -/
def roundEven (value : ℚ) : ℤ :=
  if Int.fract value < 1 / 2 then ⌊value⌋
  else if 1 / 2 < Int.fract value then ⌊value⌋ + 1
  else if Even ⌊value⌋ then ⌊value⌋ else ⌊value⌋ + 1

theorem floor_le_roundEven (value : ℚ) : ⌊value⌋ ≤ roundEven value := by
  unfold roundEven
  split_ifs <;> omega

theorem roundEven_le (value : ℚ) : roundEven value ≤ ⌊value⌋ + 1 := by
  unfold roundEven
  split_ifs <;> omega

@[simp]
theorem roundEven_intCast (value : ℤ) : roundEven value = value := by
  rw [roundEven, Int.fract_intCast, if_pos (by norm_num), Int.floor_intCast]

theorem roundEven_mono {left right : ℚ} (hle : left ≤ right) :
    roundEven left ≤ roundEven right := by
  rcases (Int.floor_le_floor hle).lt_or_eq with hless | hsame
  · have hup := roundEven_le left
    have hdown := floor_le_roundEven right
    omega
  · have hfract : Int.fract left ≤ Int.fract right := by
      rw [Int.fract, Int.fract, hsame]
      linarith
    unfold roundEven
    rw [hsame]
    split_ifs <;> first | omega | linarith

theorem roundEven_nonneg {value : ℚ} (hvalue : 0 ≤ value) : 0 ≤ roundEven value := by
  have hmono := roundEven_mono hvalue
  rwa [← Int.cast_zero, roundEven_intCast] at hmono

/-! ## Rounding to 53 digits -/

/-- The exponent of the last digit of a number. -/
def exponent (value : ℚ) : ℤ :=
  max (Int.log 2 value - 52) (-1074)

/-- The nearest multiple of a power of two. -/
def roundTo (power : ℤ) (value : ℚ) : ℚ :=
  roundEven (value / 2 ^ power) * 2 ^ power

/-- The nearest number of 53 digits, for a value that is not negative. -/
def nearest (value : ℚ) : ℚ :=
  roundTo (exponent value) value

section Rounding

variable {value left right : ℚ}

theorem neg_1074_le_exponent (value : ℚ) : -1074 ≤ exponent value :=
  le_max_right ..

theorem exponent_mono (hleft : 0 < left) (hle : left ≤ right) :
    exponent left ≤ exponent right :=
  max_le_max_right _ (Int.sub_le_sub_right (Int.log_mono_right hleft hle) _)

theorem zpow_pos_two (power : ℤ) : (0 : ℚ) < 2 ^ power :=
  zpow_pos two_pos power

theorem roundTo_mono (power : ℤ) : Monotone (roundTo power) := by
  intro left right hle
  have hquotient : left / 2 ^ power ≤ right / 2 ^ power :=
    div_le_div_of_nonneg_right hle (zpow_pos_two power).le
  exact mul_le_mul_of_nonneg_right (Int.cast_le.mpr (roundEven_mono hquotient))
    (zpow_pos_two power).le

/-- A multiple of the power stays as it is. -/
theorem roundTo_of_mul {power : ℤ} (digits : ℤ) (hvalue : value = digits * 2 ^ power) :
    roundTo power value = value := by
  rw [roundTo, hvalue, mul_div_cancel_right₀ _ (zpow_pos_two power).ne', roundEven_intCast]

/-- A power of two is a multiple of every smaller one. -/
theorem exists_zpow_eq_mul {small large : ℤ} (hle : small ≤ large) :
    ∃ factor : ℤ, (2 : ℚ) ^ large = factor * 2 ^ small := by
  refine ⟨2 ^ (large - small).toNat, ?_⟩
  push_cast
  rw [← zpow_natCast, Int.toNat_of_nonneg (by omega), ← zpow_add₀ two_ne_zero]
  congr 1
  omega

theorem roundTo_of_zpow {power large : ℤ} (hle : power ≤ large) :
    roundTo power (2 ^ large) = 2 ^ large := by
  obtain ⟨factor, hfactor⟩ := exists_zpow_eq_mul hle
  exact roundTo_of_mul factor hfactor

theorem lt_zpow_of_exponent_lt {power : ℤ} (hless : exponent value < power) :
    value < 2 ^ (power + 52) := by
  have hlog : Int.log 2 value + 1 ≤ power + 52 := by
    have := le_max_left (Int.log 2 value - 52) (-1074)
    rw [← exponent] at this
    omega
  have hupper := Int.lt_zpow_succ_log_self one_lt_two value
  exact hupper.trans_le (zpow_le_zpow_right₀ one_le_two hlog)

theorem zpow_le_of_lt_exponent (hvalue : 0 < value) (hless : -1074 < exponent value) :
    2 ^ (exponent value + 52) ≤ value := by
  have hlog : exponent value + 52 = Int.log 2 value := by
    rw [exponent] at hless ⊢
    omega
  rw [hlog]
  exact Int.zpow_log_le_self one_lt_two hvalue

theorem lt_zpow_exponent (value : ℚ) : value < 2 ^ (exponent value + 53) := by
  have hbound := lt_zpow_of_exponent_lt (Int.lt_succ (exponent value))
  rwa [add_assoc] at hbound

theorem zero_eq_mul (power : ℤ) : (0 : ℚ) = (0 : ℤ) * 2 ^ power := by
  rw [Int.cast_zero, zero_mul]

@[simp]
theorem nearest_zero : nearest 0 = 0 :=
  roundTo_of_mul 0 (zero_eq_mul _)

theorem nearest_nonneg (hvalue : 0 ≤ value) : 0 ≤ nearest value := by
  refine mul_nonneg (Int.cast_nonneg (roundEven_nonneg ?_)) (zpow_pos_two _).le
  exact div_nonneg hvalue (zpow_pos_two _).le

/-- A larger value is rounded to a larger number. -/
theorem nearest_mono (hleft : 0 ≤ left) (hle : left ≤ right) : nearest left ≤ nearest right := by
  rcases hleft.eq_or_lt with hzero | hpos
  · rw [← hzero, nearest_zero]
    exact nearest_nonneg (hleft.trans hle)
  rcases (exponent_mono hpos hle).eq_or_lt with hsame | hless
  · rw [nearest, nearest, hsame]
    exact roundTo_mono _ hle
  -- A power of two lies between the two values, and both roundings respect it.
  · have hbelow := lt_zpow_of_exponent_lt hless
    have habove := zpow_le_of_lt_exponent (hpos.trans_le hle)
      ((neg_1074_le_exponent left).trans_lt hless)
    calc nearest left ≤ roundTo (exponent left) (2 ^ (exponent right + 52)) :=
          roundTo_mono _ hbelow.le
      _ = 2 ^ (exponent right + 52) := roundTo_of_zpow (by omega)
      _ = roundTo (exponent right) (2 ^ (exponent right + 52)) :=
          (roundTo_of_zpow (by omega)).symm
      _ ≤ nearest right := roundTo_mono _ habove

/-- A number of at most 53 digits. -/
def Representable (value : ℚ) : Prop :=
  ∃ digits power : ℤ, digits ≤ 2 ^ 53 ∧ -1074 ≤ power ∧ value = digits * 2 ^ power

theorem representable_intCast {value : ℤ} (hvalue : value ≤ 2 ^ 53) :
    Representable (value : ℚ) :=
  ⟨value, 0, hvalue, by norm_num, by rw [zpow_zero, mul_one]⟩

/-- What is representable is rounded to itself. -/
theorem nearest_of_representable (hrepresentable : Representable value) (hvalue : 0 ≤ value) :
    nearest value = value := by
  obtain ⟨digits, power, hdigits, hpower, hmul⟩ := hrepresentable
  rcases hvalue.eq_or_lt with hzero | hpos
  · rw [← hzero, nearest_zero]
  rcases hdigits.eq_or_lt with hfull | hless
  · have hzpow : value = 2 ^ (power + 53) := by
      rw [hmul, hfull, zpow_add₀ two_ne_zero, mul_comm]
      norm_num
    have hlog : Int.log 2 ((2 : ℚ) ^ (power + 53)) = power + 53 := by
      exact_mod_cast Int.log_zpow (R := ℚ) one_lt_two (power + 53)
    have hexponent : exponent (2 ^ (power + 53)) ≤ power + 53 := by
      rw [exponent, hlog]
      omega
    rw [nearest, hzpow]
    exact roundTo_of_zpow hexponent
  · have hupper : value < 2 ^ (power + 53) := by
      rw [hmul, zpow_add₀ two_ne_zero, mul_comm]
      refine mul_lt_mul_of_pos_left ?_ (zpow_pos_two power)
      exact_mod_cast hless
    have hexponent : exponent value ≤ power := by
      have hlog : Int.log 2 value < power + 53 :=
        (Int.lt_zpow_iff_log_lt one_lt_two hpos).mp hupper
      exact max_le (by omega) hpower
    obtain ⟨factor, hfactor⟩ := exists_zpow_eq_mul hexponent
    refine roundTo_of_mul (digits * factor) (hmul.trans ?_)
    rw [hfactor]
    push_cast
    ring

theorem representable_nearest (value : ℚ) : Representable (nearest value) := by
  refine ⟨roundEven (value / 2 ^ exponent value), exponent value, ?_, neg_1074_le_exponent _, rfl⟩
  have hquotient : value / 2 ^ exponent value < ((2 ^ 53 : ℤ) : ℚ) := by
    rw [div_lt_iff₀ (zpow_pos_two _)]
    have hupper := lt_zpow_exponent value
    rw [zpow_add₀ two_ne_zero, mul_comm] at hupper
    exact_mod_cast hupper
  have hfloor := Int.floor_lt.mpr hquotient
  have hround := roundEven_le (value / 2 ^ exponent value)
  omega

end Rounding

/-! ## Numbers -/

inductive Double
  | nan
  | posInf
  | negInf
  | finite (value : ℚ)
  deriving DecidableEq

namespace Double

/-- The number an exact result is rounded to. -/
def ofRat (value : ℚ) : Double :=
  if 2 ^ 1024 ≤ nearest |value| then (if 0 ≤ value then .posInf else .negInf)
  else .finite (if 0 ≤ value then nearest |value| else -nearest |value|)

/-- An infinity with the sign of a number, and NaN for zero. -/
def signedInf (value : ℚ) : Double :=
  if 0 < value then .posInf else if value < 0 then .negInf else .nan

def mul : Double → Double → Double
  | .nan, _ | _, .nan => .nan
  | .finite left, .finite right => ofRat (left * right)
  | .posInf, .finite value | .finite value, .posInf => signedInf value
  | .negInf, .finite value | .finite value, .negInf => signedInf (-value)
  | .posInf, .posInf | .negInf, .negInf => .posInf
  | .posInf, .negInf | .negInf, .posInf => .negInf

/-- Division, where a zero divisor counts as positive. -/
def div : Double → Double → Double
  | .nan, _ | _, .nan => .nan
  | .finite left, .finite right => if right = 0 then signedInf left else ofRat (left / right)
  | .finite _, .posInf | .finite _, .negInf => .finite 0
  | .posInf, .finite value => if value < 0 then .negInf else .posInf
  | .negInf, .finite value => if value < 0 then .posInf else .negInf
  | .posInf, .posInf | .posInf, .negInf | .negInf, .posInf | .negInf, .negInf => .nan

def add : Double → Double → Double
  | .nan, _ | _, .nan => .nan
  | .finite left, .finite right => ofRat (left + right)
  | .posInf, .negInf | .negInf, .posInf => .nan
  | .posInf, _ | _, .posInf => .posInf
  | .negInf, _ | _, .negInf => .negInf

/-- The order of the numbers; NaN is below, above and equal to nothing. -/
def lt : Double → Double → Bool
  | .nan, _ | _, .nan => false
  | .finite left, .finite right => left < right
  | .negInf, .negInf | .posInf, _ | _, .negInf => false
  | .negInf, _ | _, .posInf => true

def le : Double → Double → Bool
  | .nan, _ | _, .nan => false
  | .finite left, .finite right => left ≤ right
  | .posInf, .posInf | .negInf, _ | _, .posInf => true
  | .posInf, _ | _, .negInf => false

/-- The conversion of an integer. -/
def ofInt (value : ℤ) : Double := ofRat value

/-- The conversion to a signed integer of 64 bits, which cuts the fraction off.  What
happens to NaN and to numbers out of range is up to the machine. -/
def toInt64 : Double → Option ℤ
  | .finite value =>
      let cut := if 0 ≤ value then ⌊value⌋ else ⌈value⌉
      if -2 ^ 63 ≤ cut ∧ cut < 2 ^ 63 then some cut else none
  | _ => none

section Lemmas

variable {value bound : ℚ}

@[simp]
theorem lt_finite (left right : ℚ) :
    (Double.finite left).lt (.finite right) = decide (left < right) :=
  rfl

@[simp]
theorem le_finite (left right : ℚ) :
    (Double.finite left).le (.finite right) = decide (left ≤ right) :=
  rfl

theorem ofRat_of_nonneg (hvalue : 0 ≤ value) :
    ofRat value = if 2 ^ 1024 ≤ nearest value then .posInf else .finite (nearest value) := by
  rw [ofRat, abs_of_nonneg hvalue, if_pos hvalue, if_pos hvalue]

/-- Rounding does not go beyond a number that is representable. -/
theorem ofRat_of_le (hvalue : 0 ≤ value) (hle : value ≤ bound) (hbound : Representable bound)
    (hfinite : bound < 2 ^ 1024) :
    ofRat value = .finite (nearest value) ∧ nearest value ≤ bound := by
  have hnearest : nearest value ≤ bound :=
    (nearest_mono hvalue hle).trans_eq (nearest_of_representable hbound (hvalue.trans hle))
  rw [ofRat_of_nonneg hvalue, if_neg (not_le.mpr (hnearest.trans_lt hfinite))]
  exact ⟨rfl, hnearest⟩

/-- An integer of at most 53 digits is converted exactly. -/
theorem ofInt_of_le {value : ℤ} (hnonneg : 0 ≤ value) (hle : value ≤ 2 ^ 53) :
    ofInt value = .finite value := by
  have hcast : (0 : ℚ) ≤ value := Int.cast_nonneg hnonneg
  have hrepresentable := representable_intCast hle
  have hfinite : (value : ℚ) < 2 ^ 1024 := by
    have hbound : (value : ℚ) ≤ 2 ^ 53 := by exact_mod_cast hle
    exact hbound.trans_lt (pow_lt_pow_right₀ one_lt_two (by norm_num))
  rw [ofInt, (ofRat_of_le hcast le_rfl hrepresentable hfinite).1,
    nearest_of_representable hrepresentable hcast]

theorem ofInt_zero : ofInt 0 = .finite 0 :=
  ofInt_of_le le_rfl (by norm_num)

theorem ofInt_one : ofInt 1 = .finite 1 := by
  simpa using ofInt_of_le zero_le_one (by norm_num)

theorem ofInt_two : ofInt 2 = .finite 2 := by
  simpa using ofInt_of_le zero_le_two (by norm_num)

/-- A product that is an integer of at most 53 digits is exact. -/
theorem mul_of_le {left right product : ℤ} (hproduct : left * right = product)
    (hnonneg : 0 ≤ product) (hle : product ≤ 2 ^ 53) :
    mul (.finite left) (.finite right) = .finite product := by
  rw [mul, ← Int.cast_mul, hproduct]
  exact ofInt_of_le hnonneg hle

/-- A quotient that is an integer of at most 53 digits is exact. -/
theorem div_of_le {left right quotient : ℤ} (hquotient : left = quotient * right)
    (hright : right ≠ 0) (hnonneg : 0 ≤ quotient) (hle : quotient ≤ 2 ^ 53) :
    div (.finite left) (.finite right) = .finite quotient := by
  have hcast : (right : ℚ) ≠ 0 := Int.cast_ne_zero.mpr hright
  rw [div, if_neg hcast, hquotient, Int.cast_mul, mul_div_cancel_right₀ _ hcast]
  exact ofInt_of_le hnonneg hle

theorem toInt64_of_le {value : ℚ} (hnonneg : 0 ≤ value) (hle : value ≤ 2 ^ 53) :
    toInt64 (.finite value) = some ⌊value⌋ := by
  have hfloor : (⌊value⌋ : ℚ) ≤ (2 ^ 53 : ℤ) := by
    exact_mod_cast (Int.floor_le value).trans hle
  have hlow : (0 : ℤ) ≤ ⌊value⌋ := Int.floor_nonneg.mpr hnonneg
  have hhigh : ⌊value⌋ ≤ 2 ^ 53 := Int.cast_le.mp hfloor
  simp only [toInt64, if_pos hnonneg]
  exact if_pos ⟨by omega, by omega⟩

/-- A number, perhaps infinite, that is not below a bound. -/
def AtLeast (bound : ℚ) : Double → Prop
  | .posInf => True
  | .finite value => bound ≤ value ∧ Representable value
  | .nan | .negInf => False

/-- Rounding does not fall below a number that is representable. -/
theorem atLeast_ofRat (hbound : Representable bound) (hnonneg : 0 ≤ bound)
    (hle : bound ≤ value) : (ofRat value).AtLeast bound := by
  rw [ofRat_of_nonneg (hnonneg.trans hle)]
  split
  · trivial
  · refine ⟨?_, representable_nearest value⟩
    exact (nearest_of_representable hbound hnonneg).symm.trans_le (nearest_mono hnonneg hle)

end Lemmas

end Double

end Conduit.Binary64
