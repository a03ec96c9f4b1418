import Conduit.Scheduler.Cron
import Mathlib.Algebra.Ring.Divisibility.Basic
import Mathlib.Algebra.Ring.Int.Defs
import Mathlib.Tactic.Linarith

/-!
# The loops of `parseField`

`parseField` writes `true` at the indices its loops run over.  Here the loops are written
out with the bounds check of a slice and the arithmetic of an `int`, and shown to come to
the entries that `parsePart` marks: no index is outside the slice, and no counter wraps
around, however large a step is.
-/

namespace Conduit.Cron

/-! ## Writing to a slice -/

/-- `result[index] = true`; outside the slice it panics. -/
def assign (result : List Bool) (index : ℤ) : Option (List Bool) :=
  if 0 ≤ index ∧ index < result.length then some (result.set index.toNat true) else none

/-- `for i := first; i <= last; i += step`, writing at `i - offset`.  A loop that is not over
after the given number of rounds has no result. -/
def assignLoop (offset last step : ℤ) : ℕ → ℤ → List Bool → Option (List Bool)
  | 0, i, result => if i ≤ last then none else some result
  | rounds + 1, i, result =>
      if i ≤ last then do
        let written ← assign result (i - offset)
        assignLoop offset last step rounds ((i + step).bmod (2 ^ 64)) written
      else some result

/-- One part of a field, with the loops of the source. -/
def writePart (min max : ℤ) (result : List Bool) (part : List Char) :
    Option (Except FieldError (List Bool)) :=
  if part = ['*'] then
    (assignLoop 0 (result.length - 1) 1 result.length 0 result).map .ok
  else if ['*', '/'].isPrefixOf part then
    match atoi (part.drop 2) with
    | none => some (.error (.invalidStep part))
    | some step =>
        if step ≤ 0 then some (.error (.invalidStep part))
        else (assignLoop 0 (max - min) step result.length 0 result).map .ok
  else if '-' ∈ part then
    match atoi (part.takeWhile (· ≠ '-')), atoi (part.dropWhile (· ≠ '-')).tail with
    | some low, some high =>
        if low < min ∨ max < high ∨ high < low then some (.error (.invalidRange part))
        else (assignLoop min high 1 result.length low result).map .ok
    | _, _ => some (.error (.invalidRange part))
  else
    match atoi part with
    | none => some (.error (.invalidValue part min max))
    | some value =>
        if value < min ∨ max < value then some (.error (.invalidValue part min max))
        else (assign result (value - min)).map .ok

def writeParts (min max : ℤ) : List (List Char) → List Bool →
    Option (Except FieldError (List Bool))
  | [], result => some (.ok result)
  | part :: parts, result =>
      match writePart min max result (trimSpace part) with
      | none => none
      | some (.error error) => some (.error error)
      | some (.ok written) => writeParts min max parts written

/-- `parseField` with its loops: `none` stands for a panic or a loop that does not end. -/
def writeField (expr : List Char) (min max : ℤ) : Option (Except FieldError (List Bool)) :=
  writeParts min max (expr.splitOn ',') (List.replicate (max - min + 1).toNat false)

/-! ## Marking -/

@[simp]
theorem length_mark (result : List Bool) (covers : ℤ → Bool) :
    (mark result covers).length = result.length := by
  simp [mark]

theorem getElem?_mark (result : List Bool) (covers : ℤ → Bool) (index : ℕ) :
    (mark result covers)[index]? = result[index]?.map (· || covers index) := by
  simp [mark, List.getElem?_mapIdx]

theorem mark_congr {result : List Bool} {covers covers' : ℤ → Bool}
    (hsame : ∀ index : ℕ, index < result.length → covers index = covers' index) :
    mark result covers = mark result covers' := by
  apply List.ext_getElem?
  intro index
  rw [getElem?_mark, getElem?_mark]
  by_cases hindex : index < result.length
  · rw [hsame index hindex]
  · rw [List.getElem?_eq_none (not_lt.mp hindex)]
    rfl

theorem mark_false (result : List Bool) : mark result (fun _ => false) = result := by
  apply List.ext_getElem?
  intro index
  rw [getElem?_mark]
  simp

theorem mark_mark (result : List Bool) (first second : ℤ → Bool) :
    mark (mark result first) second =
      mark result fun offset => first offset || second offset := by
  apply List.ext_getElem?
  intro index
  rw [getElem?_mark, getElem?_mark, getElem?_mark, Option.map_map]
  congr 1
  funext entry
  exact Bool.or_assoc _ _ _

/-- An entry that is set first is one more entry that is marked. -/
theorem mark_set (result : List Bool) (written : ℕ) (covers : ℤ → Bool) :
    mark (result.set written true) covers =
      mark result fun offset => decide (offset = written) || covers offset := by
  apply List.ext_getElem?
  intro index
  rw [getElem?_mark, getElem?_mark, List.getElem?_set]
  by_cases hwritten : written = index
  · subst hwritten
    by_cases hindex : written < result.length
    · simp [hindex]
    · simp [hindex]
  · have hother : ¬(index : ℤ) = written := by omega
    simp [hwritten, hother]

/-! ## What the loops come to -/

theorem assign_eq {result : List Bool} {index : ℤ} (hlow : 0 ≤ index)
    (hhigh : index < result.length) :
    assign result index = some (mark result fun offset => decide (offset = index)) := by
  have hset : result.set index.toNat true =
      mark (result.set index.toNat true) fun _ => false := (mark_false _).symm
  rw [assign, if_pos ⟨hlow, hhigh⟩, hset, mark_set]
  congr 2
  funext offset
  rw [Int.toNat_of_nonneg hlow, Bool.or_false]

theorem dvd_sub_iff (first step i : ℤ) : step ∣ i - first ↔ step ∣ i - (first + step) := by
  have hshift : i - first = i - (first + step) + step := by omega
  rw [hshift]
  exact dvd_add_self_right

/-- One round of a loop and the rounds after it pass the counters that the loop passes. -/
theorem passed_iff {first last step i : ℤ} (hstep : 0 < step) (hmore : first ≤ last) :
    (i = first ∨ first + step ≤ i ∧ i ≤ last ∧ step ∣ i - (first + step)) ↔
      first ≤ i ∧ i ≤ last ∧ step ∣ i - first := by
  have hdvd := dvd_sub_iff first step i
  rw [hdvd]
  constructor
  · rintro (rfl | ⟨hfirst, hlast, hmultiple⟩)
    · refine ⟨Int.le_refl _, hmore, ?_⟩
      rw [← hdvd, Int.sub_self]
      exact Int.dvd_zero step
    · exact ⟨by omega, hlast, hmultiple⟩
  · rintro ⟨hfirst, hlast, hmultiple⟩
    by_cases hhere : i = first
    · exact .inl hhere
    · have hpositive : 0 < i - first := by omega
      have hfar := Int.le_of_dvd hpositive (hdvd.mpr hmultiple)
      exact .inr ⟨by omega, hlast, hmultiple⟩

/-- A loop that is over marks nothing. -/
theorem mark_of_lt {offset first last step : ℤ} (hover : last < first) (result : List Bool) :
    mark result (fun index => decide (first ≤ offset + index ∧ offset + index ≤ last ∧
      step ∣ offset + index - first)) = result := by
  conv_rhs => rw [← mark_false result]
  apply mark_congr
  intro index _
  rw [decide_eq_false_iff_not]
  omega

/-- A loop inside the slice whose counter does not wrap around marks the indices it passes,
and is over after the given rounds. -/
theorem assignLoop_eq {offset last step : ℤ} (hstep : 0 < step) {rounds : ℕ} {first : ℤ}
    {result : List Bool} (hoffset : offset ≤ first) (hlast : last - offset < result.length)
    (hrounds : last < first + rounds * step) (hnegative : -2 ^ 63 ≤ first)
    (hfits : ∀ i, first ≤ i → i ≤ last → step ∣ i - first → i + step < 2 ^ 63) :
    assignLoop offset last step rounds first result =
      some (mark result fun index =>
        decide (first ≤ offset + index ∧ offset + index ≤ last ∧
          step ∣ offset + index - first)) := by
  induction rounds generalizing first result with
  | zero =>
      have hover : last < first := by simpa using hrounds
      rw [assignLoop, if_neg (by omega), mark_of_lt hover]
  | succ rounds ih =>
      by_cases hmore : first ≤ last
      · have hnext : first + step < 2 ^ 63 := by
          apply hfits first (Int.le_refl _) hmore
          rw [Int.sub_self]
          exact Int.dvd_zero step
        have hcounter : (first + step).bmod (2 ^ 64) = first + step :=
          Int.bmod_eq_of_le (by omega) (by omega)
        rw [assignLoop, if_pos hmore, assign_eq (by omega) (by omega), hcounter]
        simp only [Option.bind_eq_bind, Option.bind_some]
        rw [ih (by omega) (by simpa using hlast) (by push_cast at hrounds; linarith) (by omega)]
        · rw [mark_mark]
          congr 1
          apply mark_congr
          intro index _
          rw [← Bool.decide_or, decide_eq_decide, ← passed_iff hstep hmore]
          omega
        · intro i hfirst hle hmultiple
          exact hfits i (by omega) hle ((dvd_sub_iff first step i).mpr hmultiple)
      · rw [assignLoop, if_neg hmore, mark_of_lt (by omega)]

/-! ## No part writes outside the slice -/

theorem length_parsePart {min max : ℤ} {result written : List Bool} {part : List Char}
    (hok : parsePart min max result part = .ok written) : written.length = result.length := by
  unfold parsePart at hok
  repeat' split at hok
  all_goals first | (cases hok; simp) | cases hok

theorem atoi_lt {text : List Char} {value : ℤ} (hvalue : atoi text = some value) :
    value < 2 ^ 63 := by
  have hfits : fitsInt value = true := (Option.filter_eq_some_iff.mp hvalue).2
  rw [fitsInt, decide_eq_true_eq] at hfits
  exact hfits.2

section Loops

variable {min max : ℤ} {result : List Bool}

theorem everyLoop_eq (hmin : 0 ≤ min) (hmax : max < 2 ^ 62)
    (hlength : result.length = max - min + 1) :
    assignLoop 0 (result.length - 1) 1 result.length 0 result =
      some (mark result fun _ => true) := by
  rw [assignLoop_eq (by omega) (by omega) (by omega) (by omega) (by omega)
    (by intro i _ _ _; omega)]
  congr 1
  apply mark_congr
  intro index hindex
  rw [decide_eq_true_eq]
  exact ⟨by omega, by omega, Int.one_dvd _⟩

/-- A step beyond the end of the field leaves only the first round, and a counter that has
come further is at least the step. -/
theorem stepLoop_eq (hmin : 0 ≤ min) (hmax : max < 2 ^ 62)
    (hlength : result.length = max - min + 1) {step : ℤ} (hstep : 0 < step)
    (hfits : step < 2 ^ 63) :
    assignLoop 0 (max - min) step result.length 0 result =
      some (mark result fun offset => decide (offset % step = 0)) := by
  have hrounds : max - min < 0 + result.length * step := by
    have hone : (result.length : ℤ) * 1 ≤ result.length * step :=
      Int.mul_le_mul_of_nonneg_left (by omega) (by omega)
    omega
  have hcounter : ∀ i, 0 ≤ i → i ≤ max - min → step ∣ i - 0 → i + step < 2 ^ 63 := by
    intro i hnonneg hlast hmultiple
    by_cases hfirst : i = 0
    · omega
    · have hfar := Int.le_of_dvd (by omega) hmultiple
      omega
  rw [assignLoop_eq hstep (by omega) (by omega) hrounds (by omega) hcounter]
  congr 1
  apply mark_congr
  intro index hindex
  rw [decide_eq_decide, ← Int.dvd_iff_emod_eq_zero, Int.zero_add, Int.sub_zero]
  constructor
  · intro hpassed
    exact hpassed.2.2
  · intro hmultiple
    exact ⟨by omega, by omega, hmultiple⟩

theorem rangeLoop_eq (hmin : 0 ≤ min) (hmax : max < 2 ^ 62)
    (hlength : result.length = max - min + 1) {low high : ℤ} (hlow : min ≤ low)
    (hhigh : high ≤ max) :
    assignLoop min high 1 result.length low result =
      some (mark result fun offset => decide (low ≤ min + offset ∧ min + offset ≤ high)) := by
  rw [assignLoop_eq (by omega) hlow (by omega) (by omega) (by omega)
    (by intro i _ _ _; omega)]
  congr 1
  apply mark_congr
  intro index _
  rw [decide_eq_decide]
  constructor
  · intro hpassed
    exact ⟨hpassed.1, hpassed.2.1⟩
  · intro hbounds
    exact ⟨hbounds.1, hbounds.2, Int.one_dvd _⟩

/-- The loops write what `parsePart` marks. -/
theorem writePart_eq (hmin : 0 ≤ min) (hmax : max < 2 ^ 62)
    (hlength : result.length = max - min + 1) (part : List Char) :
    writePart min max result part = some (parsePart min max result part) := by
  unfold writePart parsePart
  by_cases hevery : part = ['*']
  · rw [if_pos hevery, if_pos hevery, everyLoop_eq hmin hmax hlength]
    rfl
  rw [if_neg hevery, if_neg hevery]
  by_cases hslash : ['*', '/'].isPrefixOf part = true
  · rw [if_pos hslash, if_pos hslash]
    cases hnumber : atoi (part.drop 2) with
    | none => rfl
    | some step =>
        by_cases hstep : step ≤ 0
        · simp only [if_pos hstep]
        · simp only [if_neg hstep]
          rw [stepLoop_eq hmin hmax hlength (by omega) (atoi_lt hnumber)]
          rfl
  rw [if_neg hslash, if_neg hslash]
  by_cases hdash : '-' ∈ part
  · rw [if_pos hdash, if_pos hdash]
    cases atoi (part.takeWhile (· ≠ '-')) with
    | none => rfl
    | some low =>
        cases atoi (part.dropWhile (· ≠ '-')).tail with
        | none => rfl
        | some high =>
            by_cases houtside : low < min ∨ max < high ∨ high < low
            · simp only [if_pos houtside]
            · simp only [if_neg houtside]
              rw [rangeLoop_eq hmin hmax hlength (by omega) (by omega)]
              rfl
  · rw [if_neg hdash, if_neg hdash]
    cases hnumber : atoi part with
    | none => rfl
    | some value =>
        by_cases houtside : value < min ∨ max < value
        · simp only [if_pos houtside]
        · simp only [if_neg houtside]
          rw [assign_eq (by omega) (by omega), Option.map_some]
          congr 2
          apply mark_congr
          intro index _
          rw [decide_eq_decide]
          omega

theorem writeParts_eq (hmin : 0 ≤ min) (hmax : max < 2 ^ 62)
    (hlength : result.length = max - min + 1) (parts : List (List Char)) :
    writeParts min max parts result =
      some (parts.foldlM (fun result part => parsePart min max result (trimSpace part))
        result) := by
  induction parts generalizing result with
  | nil => rfl
  | cons part parts ih =>
      rw [writeParts, writePart_eq hmin hmax hlength, List.foldlM_cons]
      cases hpart : parsePart min max result (trimSpace part) with
      | error error => rfl
      | ok written =>
          have hwritten : written.length = max - min + 1 := by
            rw [length_parsePart hpart, hlength]
          exact ih hwritten

end Loops

/-- No input makes `parseField` panic or run forever. -/
theorem writeField_eq (expr : List Char) {min max : ℤ} (hmin : 0 ≤ min) (hmax : max < 2 ^ 62)
    (hrange : min ≤ max) : writeField expr min max = some (parseField expr min max) := by
  apply writeParts_eq hmin hmax
  rw [List.length_replicate]
  omega

end Conduit.Cron
