import Conduit.Store.Models

/-!
# Cron expressions

`scheduler.Parse`: five fields separated by white space, each a comma-separated
list of `*`, `*/n`, `a-b` and `a`.  A parsed expression holds one membership set
for each field.  Text is a list of characters here, since nothing in the parser
looks at bytes.
-/

namespace Conduit.Cron

open Models

/-! ## Text -/

/-- `unicode.IsSpace`. -/
def isSpace (char : Char) : Bool :=
  let code := char.toNat
  (0x09 ≤ code ∧ code ≤ 0x0d) ∨ code = 0x20 ∨ code = 0x85 ∨ code = 0xa0 ∨
    code = 0x1680 ∨ (0x2000 ≤ code ∧ code ≤ 0x200a) ∨ code = 0x2028 ∨ code = 0x2029 ∨
    code = 0x202f ∨ code = 0x205f ∨ code = 0x3000

/-- `strings.Fields`. -/
def fields (text : List Char) : List (List Char) :=
  (text.splitOnP isSpace).filter (· ≠ [])

/-- `strings.TrimSpace`. -/
def trimSpace (text : List Char) : List Char :=
  ((text.dropWhile isSpace).reverse.dropWhile isSpace).reverse

theorem trimSpace_eq_self {text : List Char} (htext : ∀ char ∈ text, isSpace char = false) :
    trimSpace text = text := by
  have hdrop : ∀ other : List Char, (∀ char ∈ other, isSpace char = false) →
      other.dropWhile isSpace = other := by
    intro other hother
    cases other with
    | nil => rfl
    | cons head rest => simp [hother head List.mem_cons_self]
  have hreverse : ∀ char ∈ text.reverse, isSpace char = false := by
    intro char hchar
    exact htext char (List.mem_reverse.mp hchar)
  rw [trimSpace, hdrop text htext, hdrop _ hreverse, List.reverse_reverse]

/-- The value of a non-empty run of decimal digits. -/
def decimal : List Char → Option ℕ
  | [] => none
  | digits =>
      if digits.all Char.isDigit then
        some (digits.foldl (fun value digit => 10 * value + (digit.toNat - 48)) 0)
      else none

/-- What an `int` can hold. -/
def fitsInt (value : ℤ) : Bool :=
  -2 ^ 63 ≤ value ∧ value < 2 ^ 63

/-- `strconv.Atoi` without its error text. -/
def atoi (text : List Char) : Option ℤ :=
  let value := match text with
    | '-' :: digits => (decimal digits).map fun magnitude => -(magnitude : ℤ)
    | '+' :: digits => (decimal digits).map Int.ofNat
    | digits => (decimal digits).map Int.ofNat
  value.filter fitsInt

/-! ## Errors -/

inductive FieldError
  | invalidStep (part : List Char)
  | invalidRange (part : List Char)
  | invalidValue (part : List Char) (min max : ℤ)
  deriving DecidableEq

inductive FieldName
  | minute
  | hour
  | dayOfMonth
  | month
  | dayOfWeek
  deriving DecidableEq

inductive ParseError
  | fieldCount (count : ℕ)
  | field (name : FieldName) (err : FieldError)
  deriving DecidableEq

/-- The text of an error; `quote` is the `%q` verb of `fmt`. -/
def FieldError.text (quote : List Char → String) : FieldError → String
  | .invalidStep part => "invalid step " ++ quote part
  | .invalidRange part => "invalid range " ++ quote part
  | .invalidValue part min max =>
      "invalid value " ++ quote part ++ " (allowed " ++ toString min ++ "-" ++
        toString max ++ ")"

def FieldName.text : FieldName → String
  | .minute => "minute"
  | .hour => "hour"
  | .dayOfMonth => "day-of-month"
  | .month => "month"
  | .dayOfWeek => "day-of-week"

def ParseError.text (quote : List Char → String) : ParseError → String
  | .fieldCount count => "expected 5 fields, got " ++ toString count
  | .field name err => name.text ++ ": " ++ err.text quote

/-! ## Parse -/

/-- Set the entries of a field's array at the offsets a part covers. -/
def mark (result : List Bool) (covers : ℤ → Bool) : List Bool :=
  result.mapIdx fun offset marked => marked || covers offset

/-- One comma-separated part of a field, read into the array built so far. -/
def parsePart (min max : ℤ) (result : List Bool) (part : List Char) :
    Except FieldError (List Bool) :=
  if part = ['*'] then .ok (mark result fun _ => true)
  else if ['*', '/'].isPrefixOf part then
    match atoi (part.drop 2) with
    | none => .error (.invalidStep part)
    | some step =>
        if step ≤ 0 then .error (.invalidStep part)
        else .ok (mark result fun offset => offset % step = 0)
  else if '-' ∈ part then
    match atoi (part.takeWhile (· ≠ '-')), atoi (part.dropWhile (· ≠ '-')).tail with
    | some low, some high =>
        if low < min ∨ max < high ∨ high < low then .error (.invalidRange part)
        else .ok (mark result fun offset => low ≤ min + offset ∧ min + offset ≤ high)
    | _, _ => .error (.invalidRange part)
  else
    match atoi part with
    | none => .error (.invalidValue part min max)
    | some value =>
        if value < min ∨ max < value then .error (.invalidValue part min max)
        else .ok (mark result fun offset => min + offset = value)

/-- The returned list has one entry for each value from `min` to `max`. -/
def parseField (expr : List Char) (min max : ℤ) : Except FieldError (List Bool) :=
  (expr.splitOn ',').foldlM (fun result part => parsePart min max result (trimSpace part))
    (List.replicate (max - min + 1).toNat false)

/-- The membership sets of a parsed expression.  The first entry of `doms` and
`months` stands for 1, and `dows` starts on Sunday. -/
structure CronSchedule where
  minutes : List Bool
  hours : List Bool
  doms : List Bool
  months : List Bool
  dows : List Bool
  deriving DecidableEq

def parse (expr : String) : Except ParseError CronSchedule :=
  match fields expr.toList with
  | [minuteField, hourField, domField, monthField, dowField] => do
      let minutes ← (parseField minuteField 0 59).mapError (.field .minute)
      let hours ← (parseField hourField 0 23).mapError (.field .hour)
      let doms ← (parseField domField 1 31).mapError (.field .dayOfMonth)
      let months ← (parseField monthField 1 12).mapError (.field .month)
      let dows ← (parseField dowField 0 6).mapError (.field .dayOfWeek)
      return { minutes, hours, doms, months, dows }
  | other => .error (.fieldCount other.length)

end Conduit.Cron
