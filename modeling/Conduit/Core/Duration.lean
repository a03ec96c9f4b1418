import Conduit.Core.Binary64

/-!
# Durations as text

A duration is a number of nanoseconds that fits in 64 bits with a sign.  Its text is a sum
of terms such as `1h2m3.5s` or `12.25µs`.  Digits after a point are read in binary64; for
those that are written the arithmetic is exact, so every duration is read back.
-/

namespace Conduit.Duration

open Binary64

def microsecond : ℕ := 1000
def millisecond : ℕ := 1000000
def second : ℕ := 1000000000
def minute : ℕ := 60 * second
def hour : ℕ := 60 * minute

/-! ## Writing -/

def fmtInt (value : ℕ) (tail : List Char) : List Char :=
  Nat.toDigits 10 value ++ tail

/-- The last `prec` digits of `value` in front of `tail`, without the zeros at their end. -/
def fmtFracLoop : ℕ → Bool → ℕ → List Char → Bool × ℕ × List Char
  | 0, shown, value, tail => (shown, value, tail)
  | prec + 1, shown, value, tail =>
      let digit := value % 10
      let shown := shown || digit ≠ 0
      fmtFracLoop prec shown (value / 10) (if shown then digit.digitChar :: tail else tail)

def fmtFrac (prec value : ℕ) (tail : List Char) : ℕ × List Char :=
  let (shown, value, tail) := fmtFracLoop prec false value tail
  (value, if shown then '.' :: tail else tail)

/-- The text without its sign. -/
def formatMagnitude (value : ℕ) : List Char :=
  if value < second then
    if value = 0 then ['0', 's']
    else
      let (value, tail) :=
        if value < microsecond then fmtFrac 0 value ['n', 's']
        else if value < millisecond then fmtFrac 3 value ['µ', 's']
        else fmtFrac 6 value ['m', 's']
      fmtInt value tail
  else
    let (seconds, tail) := fmtFrac 9 value ['s']
    let tail := fmtInt (seconds % 60) tail
    let minutes := seconds / 60
    if 0 < minutes then
      let tail := fmtInt (minutes % 60) ('m' :: tail)
      let hours := minutes / 60
      if 0 < hours then fmtInt hours ('h' :: tail) else tail
    else tail

/-- `Duration.String`. -/
def format (value : ℤ) : List Char :=
  let text := formatMagnitude value.natAbs
  if value < 0 then '-' :: text else text

/-! ## Reading -/

/-- The digits at the front of a text, or nothing when they exceed `2 ^ 63`. -/
def leadingInt : ℕ → List Char → Option (ℕ × List Char)
  | value, [] => some (value, [])
  | value, char :: rest =>
      if char.isDigit then
        if 2 ^ 63 / 10 < value then none
        else
          let value := 10 * value + (char.toNat - '0'.toNat)
          if 2 ^ 63 < value then none else leadingInt value rest
      else some (value, char :: rest)

/-- The digits after a point, as an integer and the power of ten to divide it by.  Digits
that do not fit are passed over. -/
def leadingFraction : Bool → ℕ → Double → List Char → ℕ × Double × List Char
  | _, value, scale, [] => (value, scale, [])
  | overflow, value, scale, char :: rest =>
      if char.isDigit then
        if overflow ∨ (2 ^ 63 - 1) / 10 < value then leadingFraction true value scale rest
        else
          let longer := 10 * value + (char.toNat - '0'.toNat)
          if 2 ^ 63 < longer then leadingFraction true value scale rest
          else leadingFraction false longer (scale.mul (.ofInt 10)) rest
      else (value, scale, char :: rest)

def unitMap : List Char → Option ℕ
  | ['n', 's'] => some 1
  | ['u', 's'] => some microsecond
  | ['µ', 's'] => some microsecond
  | ['μ', 's'] => some microsecond
  | ['m', 's'] => some millisecond
  | ['s'] => some second
  | ['m'] => some minute
  | ['h'] => some hour
  | _ => none

inductive ParseError
  | invalid
  | missingUnit
  | unknownUnit (unit : List Char)
  deriving DecidableEq

/-- What a number is made of, and a unit is not. -/
def isNumeric (char : Char) : Bool :=
  char = '.' || char.isDigit

/-- The digits after a point, and whether there are any. -/
def readFraction : List Char → ℕ × Double × Bool × List Char
  | '.' :: text =>
      let (value, scale, rest) := leadingFraction false 0 (.ofInt 1) text
      (value, scale, rest.length ≠ text.length, rest)
  | text => (0, .ofInt 1, false, text)

/-- The nanoseconds of a fraction, which are less than an hour and hence in range. -/
def fractionNanos (value : ℕ) (scale : Double) (unit : ℕ) : ℕ :=
  (((Double.ofInt value).mul ((Double.ofInt unit).div scale)).toInt64.getD 0).toNat

/-- One number with its unit. -/
def parseTerm (text : List Char) : Except ParseError (ℕ × List Char) :=
  if text.head?.all isNumeric = false then .error .invalid
  else match leadingInt 0 text with
    | none => .error .invalid
    | some (whole, afterInt) =>
        let (fraction, scale, post, afterNumber) := readFraction afterInt
        if afterInt.length = text.length ∧ post = false then .error .invalid
        else
          let unitText := afterNumber.takeWhile (!isNumeric ·)
          let rest := afterNumber.dropWhile (!isNumeric ·)
          if unitText = [] then .error .missingUnit
          else match unitMap unitText with
            | none => .error (.unknownUnit unitText)
            | some unit =>
                if 2 ^ 63 / unit < whole then .error .invalid
                else
                  let value :=
                    whole * unit + if 0 < fraction then fractionNanos fraction scale unit else 0
                  if 0 < fraction ∧ 2 ^ 63 < value then .error .invalid
                  else .ok (value, rest)

/-- The sum of the terms, in 64 bits.  Every term takes a character, so there are no more
rounds than characters. -/
def parseTerms : ℕ → ℕ → List Char → Except ParseError ℕ
  | _, total, [] => .ok total
  | 0, _, _ :: _ => .error .invalid
  | rounds + 1, total, first :: text =>
      match parseTerm (first :: text) with
      | .error err => .error err
      | .ok (value, rest) =>
          let total := (total + value) % 2 ^ 64
          if 2 ^ 63 < total then .error .invalid else parseTerms rounds total rest

/-- What follows the sign, and whether that is a minus. -/
def splitSign : List Char → Bool × List Char
  | '-' :: text => (true, text)
  | '+' :: text => (false, text)
  | text => (false, text)

/-- `time.ParseDuration`. -/
def parseDuration (text : List Char) : Except ParseError ℤ :=
  let (negative, text) := splitSign text
  if text = ['0'] then .ok 0
  else if text = [] then .error .invalid
  else match parseTerms text.length 0 text with
    | .error err => .error err
    | .ok total =>
        if negative then .ok (-total)
        else if 2 ^ 63 - 1 < total then .error .invalid
        else .ok total

/-! ## Digits -/

section Digits

variable {digits rest tail : List Char} {value : ℕ}

/-- No digit comes next. -/
def Ends (rest : List Char) : Prop :=
  ∀ char ∈ rest.head?, char.isDigit = false

theorem digit_le_nine {char : Char} (hdigit : char.isDigit = true) :
    char.toNat - '0'.toNat ≤ 9 := by
  rw [Char.isDigit, Bool.and_eq_true, decide_eq_true_eq, decide_eq_true_eq] at hdigit
  have hhigh := UInt32.le_iff_toNat_le.mp hdigit.2
  change char.toNat ≤ 57 at hhigh
  change char.toNat - 48 ≤ 9
  omega

theorem le_ofDigitChars (digits : List Char) (value : ℕ) :
    value ≤ Nat.ofDigitChars 10 digits value := by
  induction digits generalizing value with
  | nil => exact le_rfl
  | cons char digits ih =>
      rw [Nat.ofDigitChars_cons]
      exact le_trans (by omega) (ih _)

theorem ofDigitChars_lt (hdigits : ∀ char ∈ digits, char.isDigit = true) {power : ℕ}
    (hvalue : value < 10 ^ power) :
    Nat.ofDigitChars 10 digits value < 10 ^ (power + digits.length) := by
  induction digits generalizing value power with
  | nil => exact hvalue
  | cons char digits ih =>
      have hdigit := digit_le_nine (hdigits char List.mem_cons_self)
      rw [Nat.ofDigitChars_cons, List.length_cons, ← Nat.add_assoc, Nat.add_right_comm]
      apply ih fun char hchar => hdigits char (List.mem_cons_of_mem _ hchar)
      rw [Nat.pow_succ]
      omega

theorem leadingInt_append (hdigits : ∀ char ∈ digits, char.isDigit = true) (hends : Ends rest)
    (hle : Nat.ofDigitChars 10 digits value ≤ 2 ^ 63) :
    leadingInt value (digits ++ rest) = some (Nat.ofDigitChars 10 digits value, rest) := by
  induction digits generalizing value with
  | nil =>
      cases rest with
      | nil => rfl
      | cons char rest =>
          rw [List.nil_append, leadingInt, if_neg (Bool.eq_false_iff.mp (hends char rfl))]
          rfl
  | cons char digits ih =>
      rw [Nat.ofDigitChars_cons] at hle ⊢
      have hstep := le_ofDigitChars digits (10 * value + (char.toNat - '0'.toNat))
      rw [List.cons_append, leadingInt, if_pos (hdigits char List.mem_cons_self),
        if_neg (by omega)]
      dsimp only
      rw [if_neg (by omega)]
      exact ih (fun char hchar => hdigits char (List.mem_cons_of_mem _ hchar)) hle

/-- Up to fifteen digits the power of ten is exact. -/
theorem leadingFraction_append (hdigits : ∀ char ∈ digits, char.isDigit = true)
    (hends : Ends rest) {power : ℕ} (hvalue : value < 10 ^ power)
    (hshort : power + digits.length ≤ 15) :
    leadingFraction false value (.finite (10 ^ power : ℤ)) (digits ++ rest) =
      (Nat.ofDigitChars 10 digits value, .finite (10 ^ (power + digits.length) : ℤ), rest) := by
  induction digits generalizing value power with
  | nil =>
      cases rest with
      | nil => rfl
      | cons char rest =>
          rw [List.nil_append, leadingFraction,
            if_neg (Bool.eq_false_iff.mp (hends char rfl))]
          rfl
  | cons char digits ih =>
      have hdigit := digit_le_nine (hdigits char List.mem_cons_self)
      have hlonger : 10 * value + (char.toNat - '0'.toNat) < 10 ^ (power + 1) := by
        rw [Nat.pow_succ]
        omega
      rw [List.length_cons] at hshort
      have hsmall : 10 ^ (power + 1) ≤ 10 ^ 15 := Nat.pow_le_pow_right (by decide) (by omega)
      have hscale : Double.mul (.finite (10 ^ power : ℤ)) (.ofInt 10) =
          .finite (10 ^ (power + 1) : ℤ) := by
        rw [Double.ofInt_of_le (by decide) (by decide)]
        apply Double.mul_of_le (pow_succ 10 power).symm (by positivity)
        have hbound : (10 ^ (power + 1) : ℤ) ≤ 10 ^ 15 := by exact_mod_cast hsmall
        omega
      rw [List.cons_append, leadingFraction, if_pos (hdigits char List.mem_cons_self),
        if_neg (by rw [Bool.false_eq_true, false_or]; omega)]
      dsimp only
      rw [if_neg (by omega), hscale, Nat.ofDigitChars_cons, List.length_cons, ← Nat.add_assoc,
        Nat.add_right_comm]
      exact ih (fun char hchar => hdigits char (List.mem_cons_of_mem _ hchar)) hlonger (by omega)

end Digits

/-! ## What `fmtFrac` writes -/

/-- The last digits of a number. -/
def padded : ℕ → ℕ → List Char
  | 0, _ => []
  | width + 1, value => padded width (value / 10) ++ [(value % 10).digitChar]

theorem length_padded (width value : ℕ) : (padded width value).length = width := by
  induction width generalizing value with
  | zero => rfl
  | succ width ih => rw [padded, List.length_append, ih, List.length_singleton]

theorem isDigit_of_mem_padded {width value : ℕ} {char : Char} (hchar : char ∈ padded width value) :
    char.isDigit = true := by
  induction width generalizing value with
  | zero => exact absurd hchar List.not_mem_nil
  | succ width ih =>
      rw [padded, List.mem_append, List.mem_singleton] at hchar
      rcases hchar with hearlier | rfl
      · exact ih hearlier
      · rw [Nat.isDigit_digitChar, decide_eq_true_eq]
        omega

theorem ofDigitChars_padded (width value : ℕ) :
    Nat.ofDigitChars 10 (padded width value) 0 = value % 10 ^ width := by
  induction width generalizing value with
  | zero => rw [pow_zero, Nat.mod_one, padded, Nat.ofDigitChars_nil]
  | succ width ih =>
      have hdigit : value % 10 < 10 := Nat.mod_lt _ (by decide)
      rw [padded, Nat.ofDigitChars_append, ih, Nat.ofDigitChars_cons, Nat.ofDigitChars_nil,
        Nat.toNat_digitChar_of_lt_ten hdigit, pow_succ', Nat.mod_mul]
      change 10 * (value / 10 % 10 ^ width) + (48 + value % 10 - 48) = _
      omega

theorem fmtFracLoop_shown (prec value : ℕ) (tail : List Char) :
    fmtFracLoop prec true value tail = (true, value / 10 ^ prec, padded prec value ++ tail) := by
  induction prec generalizing value tail with
  | zero => rw [fmtFracLoop, pow_zero, Nat.div_one, padded, List.nil_append]
  | succ prec ih =>
      rw [fmtFracLoop, Bool.true_or, if_pos rfl, ih, Nat.div_div_eq_div_mul, ← pow_succ', padded,
        List.append_assoc, List.singleton_append]

/-- The digits `fmtFrac` writes for the last `prec` digits of `value`. -/
structure FractionOf (prec value : ℕ) (digits : List Char) : Prop where
  digit : ∀ char ∈ digits, char.isDigit = true
  length_le : digits.length ≤ prec
  value_eq : Nat.ofDigitChars 10 digits 0 * 10 ^ (prec - digits.length) = value % 10 ^ prec

theorem exists_fmtFracLoop (prec value : ℕ) (tail : List Char) :
    ∃ digits, FractionOf prec value digits ∧
      fmtFracLoop prec false value tail =
        (!digits.isEmpty, value / 10 ^ prec, digits ++ tail) := by
  induction prec generalizing value tail with
  | zero =>
      refine ⟨[], ⟨nofun, le_rfl, ?_⟩, ?_⟩
      · rw [pow_zero, Nat.mod_one, Nat.ofDigitChars_nil, Nat.zero_mul]
      · rw [fmtFracLoop, pow_zero, Nat.div_one]
        rfl
  | succ prec ih =>
      rw [fmtFracLoop, Bool.false_or]
      have hsplit : value % 10 ^ (prec + 1) = value % 10 + 10 * (value / 10 % 10 ^ prec) := by
        rw [pow_succ', Nat.mod_mul]
      by_cases hzero : value % 10 = 0
      · -- a zero at the end is not shown
        obtain ⟨digits, ⟨hdigit, hlength, hvalue⟩, hloop⟩ := ih (value / 10) tail
        refine ⟨digits, ⟨hdigit, by omega, ?_⟩, ?_⟩
        · rw [hsplit, ← hvalue, hzero, show prec + 1 - digits.length =
            prec - digits.length + 1 by omega, pow_succ]
          ring
        · rw [hzero]
          exact hloop.trans (by rw [Nat.div_div_eq_div_mul, ← pow_succ'])
      · refine ⟨padded (prec + 1) value, ⟨fun _ => isDigit_of_mem_padded, ?_, ?_⟩, ?_⟩
        · rw [length_padded]
        · rw [length_padded, Nat.sub_self, pow_zero, Nat.mul_one, ofDigitChars_padded]
        · have hshown : decide (value % 10 ≠ 0) = true := decide_eq_true hzero
          have hne : (padded (prec + 1) value).isEmpty = false := by
            rw [List.isEmpty_eq_false_iff, ← List.length_pos_iff, length_padded]
            exact Nat.succ_pos prec
          rw [hshown, if_pos rfl, fmtFracLoop_shown, hne, Nat.div_div_eq_div_mul,
            ← pow_succ', padded, List.append_assoc, List.singleton_append, Bool.not_false]

/-- Digits behind a point, if there are any. -/
def pointed : List Char → List Char
  | [] => []
  | digit :: digits => '.' :: digit :: digits

theorem exists_fmtFrac (prec value : ℕ) (tail : List Char) :
    ∃ digits, FractionOf prec value digits ∧
      fmtFrac prec value tail = (value / 10 ^ prec, pointed digits ++ tail) := by
  obtain ⟨digits, hfraction, hloop⟩ := exists_fmtFracLoop prec value tail
  refine ⟨digits, hfraction, ?_⟩
  rw [fmtFrac, hloop]
  cases digits with
  | nil => rfl
  | cons digit digits => rfl

theorem fmtFrac_fst (prec value : ℕ) (tail : List Char) :
    (fmtFrac prec value tail).1 = value / 10 ^ prec := by
  obtain ⟨digits, -, hwritten⟩ := exists_fmtFrac prec value tail
  rw [hwritten]

/-! ## Reading one term -/

section Terms

variable {digits unitText rest : List Char} {unit : ℕ}

theorem unitMap_spec (hunit : unitMap unitText = some unit) :
    (∀ char ∈ unitText, isNumeric char = false) ∧ unitText ≠ [] ∧ 0 < unit ∧ unit ≤ hour := by
  have hspec : unitText.all (fun char => !isNumeric char) = true ∧ unitText ≠ [] ∧
      0 < unit ∧ unit ≤ hour := by
    unfold unitMap at hunit
    split at hunit <;> cases hunit <;> decide
  refine ⟨fun char hmem => ?_, hspec.2⟩
  simpa only [Bool.not_eq_true'] using List.all_eq_true.mp hspec.1 char hmem

/-- What follows a term starts the next one. -/
def Starts (rest : List Char) : Prop :=
  rest.head?.all isNumeric = true

theorem starts_fmtInt (value : ℕ) (tail : List Char) : Starts (fmtInt value tail) := by
  cases hdigits : Nat.toDigits 10 value with
  | nil => exact absurd hdigits Nat.toDigits_ne_nil
  | cons first digits =>
      have hmem : first ∈ Nat.toDigits 10 value := by
        rw [hdigits]
        exact List.mem_cons_self
      rw [Starts, fmtInt, hdigits, List.cons_append, List.head?_cons, Option.all_some, isNumeric,
        Nat.isDigit_of_mem_toDigits (by decide) le_rfl hmem, Bool.or_true]

/-- A unit reaches as far as the next number. -/
theorem span_unitText (hunit : unitMap unitText = some unit) (hrest : Starts rest) :
    (unitText ++ rest).takeWhile (!isNumeric ·) = unitText ∧
      (unitText ++ rest).dropWhile (!isNumeric ·) = rest := by
  have hletters : ∀ char ∈ unitText, (!isNumeric char) = true := by
    intro char hchar
    rw [(unitMap_spec hunit).1 char hchar, Bool.not_false]
  rw [List.takeWhile_append_of_pos hletters, List.dropWhile_append_of_pos hletters]
  cases rest with
  | nil => exact ⟨List.append_nil _, rfl⟩
  | cons char rest =>
      have hchar : isNumeric char = true := hrest
      simp [hchar]

theorem head_unitText_append (hunit : unitMap unitText = some unit) {char : Char}
    (hchar : char ∈ (unitText ++ rest).head?) : isNumeric char = false := by
  obtain ⟨hletters, hne, -⟩ := unitMap_spec hunit
  cases unitText with
  | nil => exact absurd rfl hne
  | cons first letters =>
      rw [List.cons_append, List.head?_cons, Option.mem_some_iff] at hchar
      exact hletters char (hchar ▸ List.mem_cons_self)

theorem not_isDigit_of_not_isNumeric {char : Char} (hchar : isNumeric char = false) :
    char.isDigit = false := by
  rw [isNumeric, Bool.or_eq_false_iff] at hchar
  exact hchar.2

theorem readFraction_pointed (hunit : unitMap unitText = some unit)
    (hdigits : ∀ char ∈ digits, char.isDigit = true) (hshort : digits.length ≤ 15) :
    readFraction (pointed digits ++ (unitText ++ rest)) =
      (Nat.ofDigitChars 10 digits 0, .finite (10 ^ digits.length : ℤ), !digits.isEmpty,
        unitText ++ rest) := by
  have hone : Double.ofInt 1 = .finite (10 ^ 0 : ℤ) :=
    Double.ofInt_of_le (by decide) (by decide)
  cases digits with
  | nil =>
      rw [pointed, List.nil_append]
      unfold readFraction
      split
      next rest' hpoint =>
        have hnot : isNumeric '.' = false := head_unitText_append hunit (by rw [hpoint]; rfl)
        exact absurd hnot (by decide)
      next => rw [hone]; rfl
  | cons digit digits =>
      have hends : Ends (unitText ++ rest) := fun char hchar =>
        not_isDigit_of_not_isNumeric (head_unitText_append hunit hchar)
      rw [pointed, List.cons_append, readFraction, hone,
        leadingFraction_append hdigits hends (by decide) (by rwa [Nat.zero_add]), Nat.zero_add]
      have hlonger :
          (unitText ++ rest).length ≠ (digit :: digits ++ (unitText ++ rest)).length := by
        simp only [List.length_append, List.length_cons]
        omega
      simp only [decide_eq_true hlonger, List.isEmpty_cons, Bool.not_false]

theorem fractionNanos_eq {value power : ℕ} (hvalue : value < 10 ^ power)
    (hpower : 10 ^ power ∣ unit) (hpos : 0 < unit) (hunit : unit ≤ hour) :
    fractionNanos value (.finite (10 ^ power : ℤ)) unit = value * (unit / 10 ^ power) := by
  have hhour : unit ≤ 2 ^ 53 := hunit.trans (by decide)
  have hscale : 10 ^ power ≤ unit := Nat.le_of_dvd hpos hpower
  obtain ⟨quotient, rfl⟩ := hpower
  have hten : 0 < 10 ^ power := pow_pos (by decide) power
  have hquotient : quotient ≤ 10 ^ power * quotient := Nat.le_mul_of_pos_left quotient hten
  have hproduct : value * quotient ≤ 10 ^ power * quotient :=
    Nat.mul_le_mul_right quotient hvalue.le
  have hbound : (((value * quotient : ℕ) : ℤ) : ℚ) ≤ 2 ^ 53 := by
    exact_mod_cast hproduct.trans hhour
  have hdivided : (Double.ofInt (10 ^ power * quotient : ℕ)).div (.finite (10 ^ power : ℤ)) =
      .finite (quotient : ℤ) := by
    rw [Double.ofInt_of_le (Int.natCast_nonneg _) (by omega)]
    apply Double.div_of_le _ (by positivity) (Int.natCast_nonneg _) (by omega)
    push_cast
    exact mul_comm ..
  rw [fractionNanos, hdivided, Double.ofInt_of_le (Int.natCast_nonneg _) (by omega),
    Double.mul_of_le (Int.natCast_mul value quotient).symm (Int.natCast_nonneg _) (by omega),
    Double.toInt64_of_le (Int.cast_nonneg (Int.natCast_nonneg _)) hbound, Int.floor_intCast,
    Option.getD_some, Int.toNat_natCast, Nat.mul_div_cancel_left quotient hten]

/-- A number that `fmtInt` and `fmtFrac` wrote, before the unit. -/
theorem parseTerm_fmtInt (whole : ℕ) (hunit : unitMap unitText = some unit)
    (hdigits : ∀ char ∈ digits, char.isDigit = true) (hpower : 10 ^ digits.length ∣ unit)
    (hfits : whole * unit + Nat.ofDigitChars 10 digits 0 * (unit / 10 ^ digits.length) ≤ 2 ^ 63)
    (hrest : Starts rest) :
    parseTerm (fmtInt whole (pointed digits ++ (unitText ++ rest))) =
      .ok (whole * unit + Nat.ofDigitChars 10 digits 0 * (unit / 10 ^ digits.length), rest) := by
  obtain ⟨hletters, hne, hpos, hhour⟩ := unitMap_spec hunit
  have hscale : 10 ^ digits.length ≤ unit := Nat.le_of_dvd hpos hpower
  have hshort : digits.length ≤ 15 := by
    by_contra hlong
    have hhuge : 10 ^ 16 ≤ 10 ^ digits.length := Nat.pow_le_pow_right (by decide) (by omega)
    have hlimit : hour < 10 ^ 16 := by decide
    omega
  have hwhole : whole ≤ 2 ^ 63 / unit := by
    rw [Nat.le_div_iff_mul_le hpos]
    omega
  have hnumeric : ∀ char ∈ Nat.toDigits 10 whole, char.isDigit = true :=
    fun char hchar => Nat.isDigit_of_mem_toDigits (by decide) le_rfl hchar
  have hends : Ends (pointed digits ++ (unitText ++ rest)) := by
    intro char hchar
    cases digits with
    | nil => exact not_isDigit_of_not_isNumeric (head_unitText_append hunit hchar)
    | cons digit digits =>
        rw [pointed, List.cons_append, List.head?_cons, Option.mem_some_iff] at hchar
        rw [← hchar]
        decide
  have hlength : (pointed digits ++ (unitText ++ rest)).length ≠
      (fmtInt whole (pointed digits ++ (unitText ++ rest))).length := by
    have hsome := List.length_pos_iff.mpr (Nat.toDigits_ne_nil : Nat.toDigits 10 whole ≠ [])
    simp only [fmtInt, List.length_append]
    omega
  have hread : leadingInt 0 (fmtInt whole (pointed digits ++ (unitText ++ rest))) =
      some (whole, pointed digits ++ (unitText ++ rest)) := by
    have hvalue : Nat.ofDigitChars 10 (Nat.toDigits 10 whole) 0 = whole :=
      Nat.ofDigitChars_ten_toDigits
    have hmost : whole ≤ 2 ^ 63 := hwhole.trans (Nat.div_le_self ..)
    rw [fmtInt, leadingInt_append hnumeric hends (hvalue.trans_le hmost), hvalue]
  have hstart : ¬ (fmtInt whole (pointed digits ++ (unitText ++ rest))).head?.all isNumeric =
      false := by
    rw [show _ = true from starts_fmtInt whole _]
    decide
  obtain ⟨htake, hdrop⟩ := span_unitText hunit hrest
  rw [parseTerm, if_neg hstart, hread]
  dsimp only
  rw [readFraction_pointed hunit hdigits hshort]
  dsimp only
  rw [if_neg fun hnone => hlength hnone.1, htake, hdrop, if_neg hne, hunit]
  dsimp only
  rw [if_neg (not_lt.mpr hwhole)]
  have hfraction : Nat.ofDigitChars 10 digits 0 < 10 ^ digits.length := by
    have hbound := ofDigitChars_lt hdigits (show 0 < 10 ^ 0 by decide)
    rwa [Nat.zero_add] at hbound
  rw [fractionNanos_eq hfraction hpower hpos hhour]
  have hzero : (if 0 < Nat.ofDigitChars 10 digits 0
      then Nat.ofDigitChars 10 digits 0 * (unit / 10 ^ digits.length) else 0) =
      Nat.ofDigitChars 10 digits 0 * (unit / 10 ^ digits.length) := by
    split
    next => rfl
    next hnone => rw [Nat.eq_zero_of_not_pos hnone, Nat.zero_mul]
  rw [hzero, if_neg fun hover => absurd hover.2 (not_lt.mpr hfits)]

end Terms

/-! ## Reading the sum back -/

section Sum

variable {unitText rest : List Char} {rounds total : ℕ}

theorem parseTerms_of_parseTerm {text : List Char} {value : ℕ} (hne : text ≠ [])
    (hrounds : text.length ≤ rounds) (hterm : parseTerm text = .ok (value, rest))
    (hfits : total + value ≤ 2 ^ 63) :
    parseTerms rounds total text = parseTerms (rounds - 1) (total + value) rest := by
  have hmod : (total + value) % 2 ^ 64 = total + value := Nat.mod_eq_of_lt (by omega)
  cases text with
  | nil => exact absurd rfl hne
  | cons first text =>
      cases rounds with
      | zero => exact absurd hrounds (by rw [List.length_cons]; omega)
      | succ rounds =>
          rw [parseTerms, hterm]
          dsimp only
          rw [hmod, if_neg (by omega), Nat.add_sub_cancel]

/-- A term of `fmtFrac`, in a unit that is a power of ten. -/
theorem parseTerms_fmtFrac {prec : ℕ} (hunit : unitMap unitText = some (10 ^ prec))
    (hrest : Starts rest) (whole value : ℕ)
    (hfits : total + (whole * 10 ^ prec + value % 10 ^ prec) ≤ 2 ^ 63)
    (hrounds : (fmtInt whole (fmtFrac prec value (unitText ++ rest)).2).length ≤ rounds) :
    parseTerms rounds total (fmtInt whole (fmtFrac prec value (unitText ++ rest)).2) =
      parseTerms (rounds - 1) (total + (whole * 10 ^ prec + value % 10 ^ prec)) rest := by
  obtain ⟨digits, ⟨hdigits, hlength, hvalue⟩, hwritten⟩ :=
    exists_fmtFrac prec value (unitText ++ rest)
  have hpower : 10 ^ digits.length ∣ 10 ^ prec := pow_dvd_pow 10 hlength
  have hnanos : Nat.ofDigitChars 10 digits 0 * (10 ^ prec / 10 ^ digits.length) =
      value % 10 ^ prec := by
    rw [Nat.pow_div hlength (by decide), hvalue]
  rw [hwritten] at hrounds ⊢
  have hne : fmtInt whole (pointed digits ++ (unitText ++ rest)) ≠ [] :=
    List.append_ne_nil_of_left_ne_nil Nat.toDigits_ne_nil _
  have hterm := parseTerm_fmtInt whole hunit hdigits hpower (by omega) hrest
  rw [hnanos] at hterm
  exact parseTerms_of_parseTerm hne hrounds hterm hfits

/-- A term without a fraction. -/
theorem parseTerms_fmtInt {unit : ℕ} (hunit : unitMap unitText = some unit) (hrest : Starts rest)
    (whole : ℕ) (hfits : total + whole * unit ≤ 2 ^ 63)
    (hrounds : (fmtInt whole (unitText ++ rest)).length ≤ rounds) :
    parseTerms rounds total (fmtInt whole (unitText ++ rest)) =
      parseTerms (rounds - 1) (total + whole * unit) rest := by
  have hne : fmtInt whole (unitText ++ rest) ≠ [] :=
    List.append_ne_nil_of_left_ne_nil Nat.toDigits_ne_nil _
  have hterm : parseTerm (fmtInt whole (pointed [] ++ (unitText ++ rest))) =
      .ok (whole * unit + Nat.ofDigitChars 10 [] 0 * (unit / 10 ^ 0), rest) := by
    refine parseTerm_fmtInt whole hunit nofun (one_dvd unit) ?_ hrest
    rw [Nat.ofDigitChars_nil, Nat.zero_mul]
    omega
  rw [Nat.ofDigitChars_nil, Nat.zero_mul] at hterm
  exact parseTerms_of_parseTerm hne hrounds hterm hfits

theorem parseTerms_nil (rounds total : ℕ) : parseTerms rounds total [] = .ok total := by
  cases rounds with
  | zero => rfl
  | succ rounds => rfl

/-- Less than a second is one term. -/
theorem parseTerms_oneTerm (prec : ℕ) {value : ℕ} (hunit : unitMap unitText = some (10 ^ prec))
    (hvalue : value ≤ 2 ^ 63) :
    let text := fmtInt (fmtFrac prec value unitText).1 (fmtFrac prec value unitText).2
    parseTerms text.length 0 text = .ok value := by
  have hsum : 0 + (value / 10 ^ prec * 10 ^ prec + value % 10 ^ prec) = value := by
    rw [Nat.zero_add]
    exact Nat.div_add_mod' value (10 ^ prec)
  intro text
  have hread := parseTerms_fmtFrac hunit (show Starts [] from rfl) (value / 10 ^ prec) value
    (hsum.trans_le hvalue) le_rfl
  rw [List.append_nil, parseTerms_nil, hsum, ← fmtFrac_fst prec value unitText] at hread
  exact hread

/-- The seconds of a longer duration, with their fraction. -/
theorem parseTerms_seconds (seconds value : ℕ)
    (hfits : total + (seconds * second + value % second) ≤ 2 ^ 63)
    (hrounds : (fmtInt seconds (fmtFrac 9 value ['s']).2).length ≤ rounds) :
    parseTerms rounds total (fmtInt seconds (fmtFrac 9 value ['s']).2) =
      .ok (total + (seconds * second + value % second)) := by
  have hunit : unitMap ['s'] = some (10 ^ 9) := rfl
  have hread := parseTerms_fmtFrac hunit (show Starts [] from rfl) seconds value hfits hrounds
  rw [parseTerms_nil] at hread
  exact hread

/-- The hours, minutes and seconds of a duration, without those in front that are zero. -/
theorem parseTerms_clock {value : ℕ} (hvalue : value ≤ 2 ^ 63) :
    let seconds := value / second
    let minutes := seconds / 60
    let hours := minutes / 60
    let clock := fmtInt (seconds % 60) (fmtFrac 9 value ['s']).2
    let text := if 0 < minutes then
        if 0 < hours then fmtInt hours ('h' :: fmtInt (minutes % 60) ('m' :: clock))
        else fmtInt (minutes % 60) ('m' :: clock)
      else clock
    parseTerms text.length 0 text = .ok value := by
  intro seconds minutes hours clock text
  have hsum : value = hours * hour + minutes % 60 * minute +
      (seconds % 60 * second + value % second) := by
    simp only [seconds, minutes, hours, hour, minute, second]
    omega
  have hseconds : ∀ rounds total, clock.length ≤ rounds →
      total + (seconds % 60 * second + value % second) ≤ 2 ^ 63 →
      parseTerms rounds total clock = .ok (total + (seconds % 60 * second + value % second)) :=
    fun rounds total hrounds hfits => parseTerms_seconds _ value hfits hrounds
  have hminutes : ∀ rounds total, (fmtInt (minutes % 60) ('m' :: clock)).length ≤ rounds →
      total + minutes % 60 * minute + (seconds % 60 * second + value % second) ≤ 2 ^ 63 →
      parseTerms rounds total (fmtInt (minutes % 60) ('m' :: clock)) =
        .ok (total + minutes % 60 * minute + (seconds % 60 * second + value % second)) := by
    intro rounds total hrounds hfits
    have hshorter : clock.length ≤ rounds - 1 := by
      rw [fmtInt, List.length_append, List.length_cons] at hrounds
      omega
    calc
      parseTerms rounds total (fmtInt (minutes % 60) ('m' :: clock)) =
          parseTerms (rounds - 1) (total + minutes % 60 * minute) clock :=
        parseTerms_fmtInt (show unitMap ['m'] = some minute from rfl) (starts_fmtInt ..) _
          (by omega) hrounds
      _ = _ := hseconds _ _ hshorter hfits
  by_cases hlong : 0 < minutes
  · by_cases hlonger : 0 < hours
    · simp only [text, if_pos hlong, if_pos hlonger]
      generalize hminuteText : fmtInt (minutes % 60) ('m' :: clock) = minuteText at hminutes ⊢
      have hshorter : minuteText.length ≤ (fmtInt hours ('h' :: minuteText)).length - 1 := by
        rw [fmtInt, List.length_append, List.length_cons]
        omega
      have hstarts : Starts minuteText := hminuteText ▸ starts_fmtInt ..
      calc
        parseTerms (fmtInt hours ('h' :: minuteText)).length 0 (fmtInt hours ('h' :: minuteText)) =
            parseTerms ((fmtInt hours ('h' :: minuteText)).length - 1) (0 + hours * hour)
              minuteText :=
          parseTerms_fmtInt (show unitMap ['h'] = some hour from rfl) hstarts _ (by omega) le_rfl
        _ = .ok value := by
          rw [hminutes _ _ hshorter (by omega), Nat.zero_add, ← hsum]
    · simp only [text, if_pos hlong, if_neg hlonger]
      rw [hminutes _ _ le_rfl (by omega)]
      rw [Nat.eq_zero_of_not_pos hlonger] at hsum
      exact congrArg Except.ok (by omega)
  · simp only [text, if_neg hlong]
    rw [hseconds _ _ le_rfl (by omega)]
    have hnone : minutes = 0 := Nat.eq_zero_of_not_pos hlong
    have hhours : hours = 0 := by
      simp only [hours]
      omega
    rw [hnone, hhours] at hsum
    exact congrArg Except.ok (by omega)

theorem parseTerms_formatMagnitude {value : ℕ} (hvalue : value ≤ 2 ^ 63) :
    parseTerms (formatMagnitude value).length 0 (formatMagnitude value) = .ok value := by
  rw [formatMagnitude]
  split
  · split
    next hzero =>
      rw [hzero]
      decide +kernel
    next =>
      dsimp only
      split
      · exact parseTerms_oneTerm 0 rfl hvalue
      · split
        · exact parseTerms_oneTerm 3 rfl hvalue
        · exact parseTerms_oneTerm 6 rfl hvalue
  · have hsplit : fmtFrac 9 value ['s'] = (value / second, (fmtFrac 9 value ['s']).2) :=
      Prod.ext (fmtFrac_fst 9 value ['s']) rfl
    rw [hsplit]
    exact parseTerms_clock hvalue

end Sum

theorem exists_formatMagnitude (value : ℕ) :
    ∃ whole tail, formatMagnitude value = fmtInt whole tail ∧ tail ≠ [] := by
  have hunit (prec : ℕ) (unitText : List Char) (hne : unitText ≠ []) :
      (fmtFrac prec value unitText).2 ≠ [] := by
    obtain ⟨digits, -, hwritten⟩ := exists_fmtFrac prec value unitText
    rw [hwritten]
    exact List.append_ne_nil_of_right_ne_nil _ hne
  rw [formatMagnitude]
  split
  · split
    · exact ⟨0, ['s'], rfl, List.cons_ne_nil _ _⟩
    · dsimp only
      split
      · exact ⟨_, _, rfl, hunit 0 _ (List.cons_ne_nil _ _)⟩
      · split
        · exact ⟨_, _, rfl, hunit 3 _ (List.cons_ne_nil _ _)⟩
        · exact ⟨_, _, rfl, hunit 6 _ (List.cons_ne_nil _ _)⟩
  · dsimp only
    split
    · split
      · exact ⟨_, _, rfl, List.cons_ne_nil _ _⟩
      · exact ⟨_, _, rfl, List.cons_ne_nil _ _⟩
    · exact ⟨_, _, rfl, hunit 9 _ (List.cons_ne_nil _ _)⟩

theorem splitSign_formatMagnitude (value : ℕ) :
    splitSign (formatMagnitude value) = (false, formatMagnitude value) := by
  obtain ⟨whole, tail, hwritten, -⟩ := exists_formatMagnitude value
  cases hdigits : Nat.toDigits 10 whole with
  | nil => exact absurd hdigits Nat.toDigits_ne_nil
  | cons first digits =>
      have hfirst : first.isDigit = true := by
        apply Nat.isDigit_of_mem_toDigits (by decide) le_rfl
        rw [hdigits]
        exact List.mem_cons_self
      rw [hwritten, fmtInt, hdigits, List.cons_append]
      unfold splitSign
      split
      next hminus =>
        rw [(List.cons.inj hminus).1] at hfirst
        exact absurd hfirst (by decide)
      next hplus =>
        rw [(List.cons.inj hplus).1] at hfirst
        exact absurd hfirst (by decide)
      next => rfl

/-- Every duration is read back. -/
theorem parseDuration_format {value : ℤ} (hlow : -2 ^ 63 ≤ value) (hhigh : value < 2 ^ 63) :
    parseDuration (format value) = .ok value := by
  have hread := parseTerms_formatMagnitude (show value.natAbs ≤ 2 ^ 63 by omega)
  have hzero : formatMagnitude value.natAbs ≠ ['0'] := by
    obtain ⟨whole, tail, hwritten, htail⟩ := exists_formatMagnitude value.natAbs
    intro hsame
    have hlength : (fmtInt whole tail).length = 1 := by
      rw [← hwritten, hsame, List.length_singleton]
    have hdigits := List.length_pos_iff.mpr (Nat.toDigits_ne_nil : Nat.toDigits 10 whole ≠ [])
    have hmore := List.length_pos_iff.mpr htail
    rw [fmtInt, List.length_append] at hlength
    omega
  have hne : formatMagnitude value.natAbs ≠ [] := by
    obtain ⟨whole, tail, hwritten, -⟩ := exists_formatMagnitude value.natAbs
    rw [hwritten]
    exact List.append_ne_nil_of_left_ne_nil Nat.toDigits_ne_nil tail
  rw [format]
  split
  next hnegative =>
    rw [parseDuration, splitSign]
    dsimp only
    rw [if_neg hzero, if_neg hne, hread]
    exact congrArg Except.ok (by omega)
  next hpositive =>
    rw [parseDuration, splitSign_formatMagnitude]
    dsimp only
    rw [if_neg hzero, if_neg hne, hread]
    dsimp only
    rw [if_neg Bool.false_ne_true, if_neg (by omega)]
    exact congrArg Except.ok (by omega)

example : parseDuration "1h15m30.918s".toList = .ok 4530918000000 := by decide +kernel

/-- The sum is taken modulo `2 ^ 64`. -/
example : parseDuration "9223372036854775808ns9223372036854775808ns".toList = .ok 0 := by
  decide +kernel

theorem format_ne_nil (value : ℤ) : format value ≠ [] := by
  rw [format]
  split
  · exact List.cons_ne_nil _ _
  · obtain ⟨whole, tail, hwritten, -⟩ := exists_formatMagnitude value.natAbs
    rw [hwritten]
    exact List.append_ne_nil_of_left_ne_nil Nat.toDigits_ne_nil tail

theorem parseTerms_le {rounds total result : ℕ} {text : List Char} (htotal : total ≤ 2 ^ 63)
    (hread : parseTerms rounds total text = .ok result) : result ≤ 2 ^ 63 := by
  induction rounds generalizing total text with
  | zero =>
      cases text with
      | nil =>
          cases hread
          exact htotal
      | cons first text => cases hread
  | succ rounds ih =>
      cases text with
      | nil =>
          cases hread
          exact htotal
      | cons first text =>
          rw [parseTerms] at hread
          split at hread
          · cases hread
          · dsimp only at hread
            split at hread
            · cases hread
            next hfits => exact ih (not_lt.mp hfits) hread

/-- Only durations are read. -/
theorem parseDuration_range {text : List Char} {value : ℤ}
    (hread : parseDuration text = .ok value) : -2 ^ 63 ≤ value ∧ value < 2 ^ 63 := by
  rw [parseDuration] at hread
  dsimp only at hread
  split at hread
  · cases hread
    decide
  · split at hread
    · cases hread
    · split at hread
      · cases hread
      next total hsum =>
        have hle := parseTerms_le (Nat.zero_le _) hsum
        split at hread
        · cases hread
          omega
        · split at hread
          · cases hread
          next hfits =>
            cases hread
            omega

/-! ## Enough rounds -/

theorem length_leadingInt {value : ℕ} {text : List Char} {found : ℕ × List Char}
    (hread : leadingInt value text = some found) : found.2.length ≤ text.length := by
  induction text generalizing value with
  | nil =>
      cases hread
      exact le_rfl
  | cons char text ih =>
      rw [leadingInt] at hread
      split at hread
      · split at hread
        · cases hread
        · dsimp only at hread
          split at hread
          · cases hread
          · exact (ih hread).trans (Nat.le_succ _)
      · cases hread
        exact le_rfl

theorem length_leadingFraction (overflow : Bool) (value : ℕ) (scale : Double) (text : List Char) :
    (leadingFraction overflow value scale text).2.2.length ≤ text.length := by
  induction text generalizing overflow value scale with
  | nil => exact le_rfl
  | cons char text ih =>
      rw [leadingFraction]
      split
      · split
        · exact (ih ..).trans (Nat.le_succ _)
        · dsimp only
          split
          · exact (ih ..).trans (Nat.le_succ _)
          · exact (ih ..).trans (Nat.le_succ _)
      · exact le_rfl

theorem length_readFraction (text : List Char) :
    (readFraction text).2.2.2.length ≤ text.length := by
  unfold readFraction
  split
  · exact (length_leadingFraction ..).trans (Nat.le_succ _)
  · exact le_rfl

/-- Every term takes a character at least. -/
theorem length_parseTerm {text rest : List Char} {value : ℕ}
    (hterm : parseTerm text = .ok (value, rest)) : rest.length < text.length := by
  rw [parseTerm] at hterm
  split at hterm
  · cases hterm
  · split at hterm
    · cases hterm
    next whole afterInt hwhole =>
      have hfirst : afterInt.length ≤ text.length := length_leadingInt hwhole
      have hsecond := length_readFraction afterInt
      dsimp only at hterm
      split at hterm
      · cases hterm
      · split at hterm
        · cases hterm
        next hunit =>
          generalize (readFraction afterInt).2.2.2 = afterNumber at *
          have hspan : (afterNumber.takeWhile (!isNumeric ·)).length +
              (afterNumber.dropWhile (!isNumeric ·)).length = afterNumber.length := by
            rw [← List.length_append, List.takeWhile_append_dropWhile]
          have hsome := List.length_pos_iff.mpr hunit
          split at hterm
          · cases hterm
          · split at hterm
            · cases hterm
            · generalize whole * _ + _ = sum at hterm
              split at hterm
              · cases hterm
              · cases hterm
                omega

/-- More rounds than characters make no difference. -/
theorem parseTerms_succ {text : List Char} {rounds : ℕ} (hrounds : text.length ≤ rounds)
    (total : ℕ) : parseTerms (rounds + 1) total text = parseTerms rounds total text := by
  induction rounds generalizing text total with
  | zero =>
      obtain rfl := List.length_eq_zero_iff.mp (Nat.le_zero.mp hrounds)
      rfl
  | succ rounds ih =>
      cases text with
      | nil => rfl
      | cons first text =>
          rw [parseTerms, parseTerms]
          split
          · rfl
          next value rest hterm =>
            have hshorter := length_parseTerm hterm
            dsimp only
            rw [ih (by omega)]

end Conduit.Duration
