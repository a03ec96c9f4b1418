import Mathlib.Order.Bounds.Basic
import Mathlib.Data.Finset.Range
import Mathlib.Data.Finset.Image
import Conduit.Core.Calendar
import Conduit.Scheduler.Cron

/-!
# The next occurrence of a cron schedule

`cronSchedule.Next` walks forward from the minute after `from`, jumping over
months, days and hours that cannot match, and gives up after four times 365 days.
`nextAfter` repeats it until the answer lies in the future.  Both loops are run
with an explicit number of rounds, which is shown to be enough.
-/

namespace Conduit.Cron

open Models Calendar

/-! ## Instants and dates, in UTC -/

def dateOf (instant : ℤ) : Date :=
  dateOfDay (instant / (24 * hour))

def hourOf (instant : ℤ) : ℤ :=
  instant % (24 * hour) / hour

def minuteOf (instant : ℤ) : ℤ :=
  instant % hour / minute

def weekdayOf (instant : ℤ) : ℤ :=
  weekday (instant / (24 * hour))

/-- `time.Date` with minutes and seconds zero. -/
def timeDate (year month day hours : ℤ) : ℤ :=
  dayOfDate year month day * (24 * hour) + hours * hour

/-- `Truncate(time.Minute)`. -/
def truncateMinute (instant : ℤ) : ℤ :=
  instant / minute * minute

/-! ## Next -/

namespace CronSchedule

/-- Whether the entry of a field's array for a value is set. -/
def contains (entries : List Bool) (offset : ℤ) : Bool :=
  entries.getD offset.toNat false

def allowsMonth (cron : CronSchedule) (instant : ℤ) : Bool :=
  contains cron.months ((dateOf instant).month - 1)

def allowsDay (cron : CronSchedule) (instant : ℤ) : Bool :=
  (dateOf instant).day ≤ 31 ∧ contains cron.doms ((dateOf instant).day - 1) = true ∧
    contains cron.dows (weekdayOf instant) = true

def allowsHour (cron : CronSchedule) (instant : ℤ) : Bool :=
  contains cron.hours (hourOf instant)

def allowsMinute (cron : CronSchedule) (instant : ℤ) : Bool :=
  contains cron.minutes (minuteOf instant)

/-- Where one round of the search goes from an instant that does not match. -/
def skip (cron : CronSchedule) (instant : ℤ) : Option ℤ :=
  let date := dateOf instant
  if cron.allowsMonth instant = false then
    some (timeDate date.year (date.month + 1) 1 0)
  else if cron.allowsDay instant = false then
    some (timeDate date.year date.month (date.day + 1) 0)
  else if cron.allowsHour instant = false then
    some (timeDate date.year date.month date.day (hourOf instant + 1))
  else if cron.allowsMinute instant = false then some (instant + minute)
  else none

def search (cron : CronSchedule) (limit : ℤ) : ℕ → ℤ → ℤ
  | 0, _ => zeroTime
  | rounds + 1, instant =>
      if instant < limit then
        match cron.skip instant with
        | some later => search cron limit rounds later
        | none => instant
      else zeroTime

/-- How far `Next` looks ahead. -/
def searchWindow : ℤ := 4 * 365 * 24 * hour

def next (cron : CronSchedule) (start : ℤ) : ℤ :=
  cron.search (start + searchWindow) (searchWindow / minute).toNat
    (truncateMinute (start + minute))

/-- A whole minute all of whose fields are in the schedule's sets. -/
def Matches (cron : CronSchedule) (instant : ℤ) : Prop :=
  instant % minute = 0 ∧ cron.allowsMonth instant = true ∧ cron.allowsDay instant = true ∧
    cron.allowsHour instant = true ∧ cron.allowsMinute instant = true

instance (cron : CronSchedule) (instant : ℤ) : Decidable (cron.Matches instant) :=
  inferInstanceAs (Decidable (_ ∧ _))

/-! ### One round -/

section Round

variable {cron : CronSchedule} {instant later : ℤ}

/-- The instants up to the start of the next month share their month. -/
theorem allowsMonth_of_lt (hle : instant ≤ later)
    (hlt : later < timeDate (dateOf instant).year ((dateOf instant).month + 1) 1 0) :
    cron.allowsMonth later = cron.allowsMonth instant := by
  have hdays : instant / (24 * hour) ≤ later / (24 * hour) :=
    Int.ediv_le_ediv (by decide) hle
  have hbefore : later / (24 * hour) <
      dayOfDate (dateOf instant).year ((dateOf instant).month + 1) 1 := by
    apply Int.ediv_lt_of_lt_mul (by decide)
    rw [timeDate] at hlt
    omega
  have hdate := dateOfDay_of_lt_next_month hdays hbefore
  rw [allowsMonth, allowsMonth, dateOf, dateOf, hdate]

/-- The start of the next day, as the search computes it. -/
theorem timeDate_next_day (instant : ℤ) :
    timeDate (dateOf instant).year (dateOf instant).month ((dateOf instant).day + 1) 0 =
      (instant / (24 * hour) + 1) * (24 * hour) := by
  rw [timeDate, dayOfDate_add, dateOf, dayOfDate_dateOfDay]
  omega

theorem timeDate_next_hour (instant : ℤ) :
    timeDate (dateOf instant).year (dateOf instant).month (dateOf instant).day
        (hourOf instant + 1) = (instant / hour + 1) * hour := by
  rw [timeDate, dateOf, dayOfDate_dateOfDay, hourOf]
  simp only [hour, minute, second, Int.reduceMul]
  omega

/-- The instants of one day share their date. -/
theorem allowsDay_of_lt (hle : instant ≤ later)
    (hlt : later < (instant / (24 * hour) + 1) * (24 * hour)) :
    cron.allowsDay later = cron.allowsDay instant := by
  have hday : later / (24 * hour) = instant / (24 * hour) := by
    simp only [hour, minute, second, Int.reduceMul] at hlt ⊢
    omega
  rw [allowsDay, allowsDay, dateOf, dateOf, weekdayOf, weekdayOf, hday]

theorem allowsHour_of_lt (hle : instant ≤ later)
    (hlt : later < (instant / hour + 1) * hour) :
    cron.allowsHour later = cron.allowsHour instant := by
  have hhour : hourOf later = hourOf instant := by
    simp only [hourOf, hour, minute, second, Int.reduceMul] at hlt ⊢
    omega
  rw [allowsHour, allowsHour, hhour]

theorem matches_of_skip_eq_none (haligned : instant % minute = 0)
    (hskip : cron.skip instant = none) : cron.Matches instant := by
  rw [skip] at hskip
  split at hskip
  · cases hskip
  · split at hskip
    · cases hskip
    · split at hskip
      · cases hskip
      · split at hskip
        · cases hskip
        · simp_all [Matches]

/-- The search may go from `instant` to `later`: a later whole minute, with no match
passed over. -/
structure Passes (cron : CronSchedule) (instant later : ℤ) : Prop where
  aligned : later % minute = 0
  progress : instant + minute ≤ later
  passed : ∀ between, instant ≤ between → between < later → ¬ cron.Matches between

theorem passes_next_month (haligned : instant % minute = 0)
    (hmonth : cron.allowsMonth instant = false) :
    cron.Passes instant
      (timeDate (dateOf instant).year ((dateOf instant).month + 1) 1 0) := by
  have hlt := lt_next_month (instant / (24 * hour))
  constructor
  · simp only [timeDate, hour, minute, second, Int.reduceMul]
    omega
  · rw [dateOf, timeDate]
    simp only [hour, minute, second, Int.reduceMul] at hlt haligned ⊢
    omega
  · intro between hle hbefore hmatches
    rw [Matches, allowsMonth_of_lt hle hbefore, hmonth] at hmatches
    exact Bool.false_ne_true hmatches.2.1

theorem passes_next_day (haligned : instant % minute = 0)
    (hday : cron.allowsDay instant = false) :
    cron.Passes instant
      (timeDate (dateOf instant).year (dateOf instant).month ((dateOf instant).day + 1) 0) := by
  rw [timeDate_next_day]
  constructor
  · simp only [hour, minute, second, Int.reduceMul]
    omega
  · simp only [hour, minute, second, Int.reduceMul] at haligned ⊢
    omega
  · intro between hle hbefore hmatches
    rw [Matches, allowsDay_of_lt hle hbefore, hday] at hmatches
    exact Bool.false_ne_true hmatches.2.2.1

theorem passes_next_hour (haligned : instant % minute = 0)
    (hhour : cron.allowsHour instant = false) :
    cron.Passes instant
      (timeDate (dateOf instant).year (dateOf instant).month (dateOf instant).day
        (hourOf instant + 1)) := by
  rw [timeDate_next_hour]
  constructor
  · simp only [hour, minute, second, Int.reduceMul]
    omega
  · simp only [hour, minute, second, Int.reduceMul] at haligned ⊢
    omega
  · intro between hle hbefore hmatches
    rw [Matches, allowsHour_of_lt hle hbefore, hhour] at hmatches
    exact Bool.false_ne_true hmatches.2.2.2.1

theorem passes_next_minute (haligned : instant % minute = 0)
    (hminute : cron.allowsMinute instant = false) : cron.Passes instant (instant + minute) := by
  constructor
  · rw [Int.add_emod_right]
    exact haligned
  · exact le_rfl
  · intro between hle hbefore hmatches
    have hsame : between = instant := by
      have hbetween := hmatches.1
      simp only [minute, second, Int.reduceMul] at haligned hbefore hbetween
      omega
    rw [Matches, hsame, hminute] at hmatches
    exact Bool.false_ne_true hmatches.2.2.2.2

theorem passes_of_skip_eq_some (haligned : instant % minute = 0)
    (hskip : cron.skip instant = some later) : cron.Passes instant later := by
  rw [skip] at hskip
  split at hskip
  case isTrue hmonth =>
    cases hskip
    exact passes_next_month haligned hmonth
  split at hskip
  case isTrue hday =>
    cases hskip
    exact passes_next_day haligned hday
  split at hskip
  case isTrue hhour =>
    cases hskip
    exact passes_next_hour haligned hhour
  split at hskip
  case isTrue hminute =>
    cases hskip
    exact passes_next_minute haligned hminute
  cases hskip

end Round

/-! ### The search -/

/-- With enough rounds the search answers the first match before the limit, or the
zero time when there is none. -/
theorem search_spec (cron : CronSchedule) {limit : ℤ} {rounds : ℕ} {instant : ℤ}
    (haligned : instant % minute = 0) (hrounds : limit ≤ instant + rounds * minute) :
    (cron.search limit rounds instant = zeroTime ∧
        ∀ between, instant ≤ between → between < limit → ¬ cron.Matches between) ∨
      IsLeast {between | instant ≤ between ∧ between < limit ∧ cron.Matches between}
        (cron.search limit rounds instant) := by
  induction rounds generalizing instant with
  | zero =>
      left
      refine ⟨rfl, ?_⟩
      intro between hle hlt
      simp only [Nat.cast_zero, zero_mul, add_zero] at hrounds
      omega
  | succ rounds ih =>
      rw [search]
      by_cases hlimit : instant < limit
      · rw [if_pos hlimit]
        cases hskip : cron.skip instant with
        | none =>
            right
            refine ⟨⟨le_rfl, hlimit, matches_of_skip_eq_none haligned hskip⟩, ?_⟩
            intro between hbetween
            exact hbetween.1
        | some later =>
            obtain ⟨hlater, hprogress, hpassed⟩ := passes_of_skip_eq_some haligned hskip
            have henough : limit ≤ later + rounds * minute := by
              push_cast at hrounds
              linarith
            rcases ih hlater henough with ⟨hzero, hnone⟩ | ⟨⟨hle, hlt, hmatches⟩, hleast⟩
            · left
              refine ⟨hzero, ?_⟩
              intro between hfrom hbefore hmatches
              by_cases hskipped : between < later
              · exact hpassed between hfrom hskipped hmatches
              · exact hnone between (not_lt.1 hskipped) hbefore hmatches
            · right
              have hminute : 0 < minute := by decide
              refine ⟨⟨by linarith, hlt, hmatches⟩, ?_⟩
              intro between hbetween
              by_cases hskipped : between < later
              · exact absurd hbetween.2.2 (hpassed between hbetween.1 hskipped)
              · exact hleast ⟨not_lt.1 hskipped, hbetween.2⟩
      · left
        rw [if_neg hlimit]
        refine ⟨rfl, ?_⟩
        intro between hle hlt
        omega

/-- What the loop comes to when it is left to run: past the limit it answers the zero
time, at a match the match, and otherwise what it comes to from the instant it skips to.
There is an answer exactly when the loop ends. -/
inductive Finds (cron : CronSchedule) (limit : ℤ) : ℤ → ℤ → Prop
  | outside {instant : ℤ} (hlimit : ¬instant < limit) : Finds cron limit instant zeroTime
  | here {instant : ℤ} (hlimit : instant < limit) (hskip : cron.skip instant = none) :
      Finds cron limit instant instant
  | onward {instant later answer : ℤ} (hlimit : instant < limit)
      (hskip : cron.skip instant = some later) (hfinds : Finds cron limit later answer) :
      Finds cron limit instant answer

/-- The number of rounds is no bound on the loop: the search answers what the loop does. -/
theorem finds_search (cron : CronSchedule) {limit : ℤ} {rounds : ℕ} {instant : ℤ}
    (haligned : instant % minute = 0) (hrounds : limit ≤ instant + rounds * minute) :
    cron.Finds limit instant (cron.search limit rounds instant) := by
  induction rounds generalizing instant with
  | zero =>
      apply Finds.outside
      simp only [Nat.cast_zero, zero_mul, add_zero] at hrounds
      exact not_lt.2 hrounds
  | succ rounds ih =>
      rw [search]
      by_cases hlimit : instant < limit
      · rw [if_pos hlimit]
        cases hskip : cron.skip instant with
        | none => exact .here hlimit hskip
        | some later =>
            obtain ⟨hlater, hprogress, -⟩ := passes_of_skip_eq_some haligned hskip
            apply Finds.onward hlimit hskip
            apply ih hlater
            push_cast at hrounds
            linarith
      · rw [if_neg hlimit]
        exact .outside hlimit

theorem truncateMinute_aligned (instant : ℤ) : truncateMinute instant % minute = 0 :=
  Int.mul_emod_left _ _

/-- The rounds `next` allows reach the end of the window. -/
theorem searchWindow_rounds (start : ℤ) :
    start + searchWindow ≤ truncateMinute (start + minute) +
      (searchWindow / minute).toNat * minute := by
  simp only [truncateMinute, searchWindow, hour, minute, second, Int.reduceMul,
    Int.reduceDiv, Int.reduceToNat]
  omega

/-- `Next` answers the first match strictly after `start` inside the search window,
or the zero time when there is none. -/
theorem next_spec (cron : CronSchedule) (start : ℤ) :
    (cron.next start = zeroTime ∧
        ∀ later, start < later → later < start + searchWindow → ¬ cron.Matches later) ∨
      IsLeast {later | start < later ∧ later < start + searchWindow ∧ cron.Matches later}
        (cron.next start) := by
  have haligned := truncateMinute_aligned (start + minute)
  have hrounds := searchWindow_rounds start
  -- Among whole minutes, being after `start` is being at or after the first one tried.
  have hfirst : ∀ later, cron.Matches later →
      (truncateMinute (start + minute) ≤ later ↔ start < later) := by
    intro later hmatches
    have hlater := hmatches.1
    simp only [truncateMinute, minute, second, Int.reduceMul] at hlater ⊢
    omega
  rcases search_spec cron haligned hrounds with ⟨hzero, hnone⟩ | hleast
  · left
    refine ⟨hzero, ?_⟩
    intro later hafter hbefore hmatches
    exact hnone later ((hfirst later hmatches).2 hafter) hbefore hmatches
  · right
    refine ⟨⟨?_, hleast.1.2.1, hleast.1.2.2⟩, ?_⟩
    · exact (hfirst _ hleast.1.2.2).1 hleast.1.1
    · intro later hlater
      exact hleast.2 ⟨(hfirst later hlater.2.2).2 hlater.1, hlater.2⟩

theorem finds_next (cron : CronSchedule) (start : ℤ) :
    cron.Finds (start + searchWindow) (truncateMinute (start + minute)) (cron.next start) :=
  finds_search cron (truncateMinute_aligned _) (searchWindow_rounds start)

/-- For every schedule and every instant the loop of `Next` ends; its answer is the earliest
match in the window, if there is a match at all, and otherwise the zero time. -/
theorem next_finds_earliest (cron : CronSchedule) (start : ℤ) :
    cron.Finds (start + searchWindow) (truncateMinute (start + minute)) (cron.next start) ∧
      ((∃ later, start < later ∧ later < start + searchWindow ∧ cron.Matches later) →
        IsLeast {later | start < later ∧ later < start + searchWindow ∧ cron.Matches later}
          (cron.next start)) ∧
      ((¬∃ later, start < later ∧ later < start + searchWindow ∧ cron.Matches later) →
        cron.next start = zeroTime) := by
  refine ⟨cron.finds_next start, ?_⟩
  rcases next_spec cron start with ⟨hzero, hnone⟩ | hleast
  · constructor
    · rintro ⟨later, hafter, hbefore, hmatches⟩
      exact absurd hmatches (hnone later hafter hbefore)
    · intro _
      exact hzero
  · constructor
    · intro _
      exact hleast
    · intro hnone
      exact absurd ⟨cron.next start, hleast.1⟩ hnone

/-- An answer that is not the zero time is the first match after `start`. -/
theorem isLeast_next {cron : CronSchedule} {start : ℤ} (hnext : cron.next start ≠ zeroTime) :
    IsLeast {later | start < later ∧ cron.Matches later} (cron.next start) ∧
      cron.next start < start + searchWindow := by
  rcases next_spec cron start with ⟨hzero, -⟩ | ⟨⟨hafter, hbefore, hmatches⟩, hleast⟩
  · exact absurd hzero hnext
  · refine ⟨⟨⟨hafter, hmatches⟩, ?_⟩, hbefore⟩
    intro later hlater
    by_cases hwindow : later < start + searchWindow
    · exact hleast ⟨hlater.1, hwindow, hlater.2⟩
    · omega

/-- `Next` finds the first match after `start` when it lies in the window and is
not the zero time itself. -/
theorem next_eq_of_isLeast {cron : CronSchedule} {start later : ℤ}
    (hleast : IsLeast {later | start < later ∧ cron.Matches later} later)
    (hwindow : later < start + searchWindow) : cron.next start = later := by
  rcases next_spec cron start with ⟨-, hnone⟩ | hfound
  · exact absurd hleast.1.2 (hnone later hleast.1.1 hwindow)
  · apply le_antisymm
    · exact hfound.2 ⟨hleast.1.1, hwindow, hleast.1.2⟩
    · exact hleast.2 ⟨hfound.1.1, hfound.1.2.2⟩

end CronSchedule

/-! ## Catching up -/

/-- The loop of `nextAfter`. -/
def catchUp (cron : CronSchedule) (now : ℤ) : ℕ → ℤ → ℕ → ℤ × ℕ
  | 0, next, skipped => (next, skipped)
  | rounds + 1, next, skipped =>
      if next ≠ zeroTime ∧ next ≤ now then
        catchUp cron now rounds (cron.next next) (skipped + 1)
      else (next, skipped)

/-- The first occurrence strictly after `now`, and how many occurrences between
`start` and `now` were stepped over. -/
def nextAfter (cron : CronSchedule) (start now : ℤ) : ℤ × ℕ :=
  catchUp cron now ((now - start) / minute + 1).toNat (cron.next start) 0

section CatchUp

variable {cron : CronSchedule} {start now : ℤ}

/-- Matches are whole minutes. -/
theorem add_minute_le_of_matches {current later : ℤ} (hcurrent : cron.Matches current)
    (hlater : cron.Matches later) (hlt : current < later) : current + minute ≤ later := by
  have hcurrentMinute := hcurrent.1
  have hlaterMinute := hlater.1
  simp only [minute, second, Int.reduceMul] at hcurrentMinute hlaterMinute ⊢
  omega

/-- The rounds `nextAfter` allows reach beyond `now`. -/
theorem lt_next_add_rounds {first : ℤ} (now : ℤ) (hafter : start < first) :
    now < first + ((now - start) / minute + 1).toNat * minute := by
  simp only [minute, second, Int.reduceMul]
  omega

theorem catchUp_zeroTime (rounds skipped : ℕ) :
    catchUp cron now rounds zeroTime skipped = (zeroTime, skipped) := by
  cases rounds <;> simp [catchUp]

/-- From an occurrence after `start` the loop reaches the first one after `now`,
unless `Next` finds nothing after one it steps over. -/
theorem catchUp_spec {rounds : ℕ} {current : ℤ} (skipped : ℕ) (hmatches : cron.Matches current)
    (hnonzero : current ≠ zeroTime) (hafter : start < current)
    (hleast : ∀ later, cron.Matches later → start < later → now < later → current ≤ later)
    (hrounds : now < current + rounds * minute) :
    ((catchUp cron now rounds current skipped).1 = zeroTime ∧
        ∃ passed, cron.Matches passed ∧ start < passed ∧ passed ≤ now ∧
          cron.next passed = zeroTime) ∨
      ((catchUp cron now rounds current skipped).1 ≠ zeroTime ∧
        IsLeast {later | start < later ∧ now < later ∧ cron.Matches later}
          (catchUp cron now rounds current skipped).1) := by
  induction rounds generalizing current skipped with
  | zero =>
      right
      simp only [Nat.cast_zero, zero_mul, add_zero] at hrounds
      refine ⟨hnonzero, ⟨hafter, hrounds, hmatches⟩, ?_⟩
      intro later hlater
      exact hleast later hlater.2.2 hlater.1 hlater.2.1
  | succ rounds ih =>
      rw [catchUp]
      by_cases hpast : current ≤ now
      · rw [if_pos ⟨hnonzero, hpast⟩]
        by_cases hnext : cron.next current = zeroTime
        · left
          rw [hnext, catchUp_zeroTime]
          exact ⟨rfl, current, hmatches, hafter, hpast, hnext⟩
        · obtain ⟨⟨⟨hlater, hnextMatches⟩, hfirst⟩, -⟩ := CronSchedule.isLeast_next hnext
          have hminute := add_minute_le_of_matches hmatches hnextMatches hlater
          apply ih (skipped + 1) hnextMatches hnext (lt_trans hafter hlater)
          · intro later hlaterMatches _ hnow
            exact hfirst ⟨lt_of_le_of_lt hpast hnow, hlaterMatches⟩
          · push_cast at hrounds
            linarith
      · right
        rw [if_neg (fun hboth => hpast hboth.2)]
        refine ⟨hnonzero, ⟨hafter, not_le.1 hpast, hmatches⟩, ?_⟩
        intro later hlater
        exact hleast later hlater.2.2 hlater.1 hlater.2.1

/-- `nextAfter` answers the first occurrence after both instants, unless `Next`
finds nothing after `start` or after an occurrence it steps over. -/
theorem nextAfter_spec (cron : CronSchedule) (start now : ℤ) :
    ((nextAfter cron start now).1 = zeroTime ∧
        ∃ passed, (passed = start ∨ (cron.Matches passed ∧ start < passed ∧ passed ≤ now)) ∧
          cron.next passed = zeroTime) ∨
      ((nextAfter cron start now).1 ≠ zeroTime ∧
        IsLeast {later | start < later ∧ now < later ∧ cron.Matches later}
          (nextAfter cron start now).1) := by
  rw [nextAfter]
  by_cases hnext : cron.next start = zeroTime
  · left
    rw [hnext, catchUp_zeroTime]
    exact ⟨rfl, start, .inl rfl, hnext⟩
  · obtain ⟨⟨⟨hafter, hmatches⟩, hfirst⟩, -⟩ := CronSchedule.isLeast_next hnext
    have hrounds := lt_next_add_rounds now hafter
    rcases catchUp_spec 0 hmatches hnext hafter
      (fun later hlater hstart _ => hfirst ⟨hstart, hlater⟩) hrounds with
      ⟨hzero, passed, hpassed⟩ | hfound
    · left
      exact ⟨hzero, passed, .inr ⟨hpassed.1, hpassed.2.1, hpassed.2.2.1⟩, hpassed.2.2.2⟩
    · right
      exact hfound

/-! ### The count -/

/-- The matches after `start` and up to `last`. -/
def matchesUpTo (cron : CronSchedule) (start last : ℤ) : Finset ℤ :=
  ((Finset.range (last - start).toNat).image fun offset : ℕ => start + 1 + offset).filter
    cron.Matches

theorem mem_matchesUpTo {last instant : ℤ} :
    instant ∈ matchesUpTo cron start last ↔
      start < instant ∧ instant ≤ last ∧ cron.Matches instant := by
  rw [matchesUpTo, Finset.mem_filter, Finset.mem_image, ← and_assoc]
  refine and_congr_left fun _ => ⟨?_, fun hbetween => ?_⟩
  · rintro ⟨offset, hoffset, rfl⟩
    rw [Finset.mem_range] at hoffset
    omega
  · refine ⟨(instant - start - 1).toNat, ?_, ?_⟩
    · rw [Finset.mem_range]
      omega
    · omega

theorem matchesUpTo_congr {last last' : ℤ} (hsame : ∀ instant, start < instant →
      cron.Matches instant → (instant ≤ last ↔ instant ≤ last')) :
    matchesUpTo cron start last = matchesUpTo cron start last' := by
  ext instant
  rw [mem_matchesUpTo, mem_matchesUpTo]
  exact and_congr_right fun hstart => and_congr_left fun hmatches =>
    hsame instant hstart hmatches

/-- A match that is passed counts for one. -/
theorem card_matchesUpTo {current : ℤ} (hafter : start < current)
    (hmatches : cron.Matches current) :
    (matchesUpTo cron start current).card =
      (matchesUpTo cron start (current - 1)).card + 1 := by
  have hinsert : matchesUpTo cron start current =
      insert current (matchesUpTo cron start (current - 1)) := by
    ext instant
    rw [Finset.mem_insert, mem_matchesUpTo, mem_matchesUpTo]
    constructor
    · rintro ⟨hstart, hle, hinstant⟩
      rcases eq_or_lt_of_le hle with rfl | hlt
      · exact .inl rfl
      · exact .inr ⟨hstart, by omega, hinstant⟩
    · rintro (rfl | ⟨hstart, hle, hinstant⟩)
      · exact ⟨hafter, le_rfl, hmatches⟩
      · exact ⟨hstart, by omega, hinstant⟩
  rw [hinsert, Finset.card_insert_of_notMem]
  rw [mem_matchesUpTo]
  omega

/-- The loop keeps count of the matches before the one it is at. -/
theorem catchUp_count {rounds skipped : ℕ} {current : ℤ} (hmatches : cron.Matches current)
    (hafter : start < current)
    (hskipped : skipped = (matchesUpTo cron start (current - 1)).card)
    (hfound : (catchUp cron now rounds current skipped).1 ≠ zeroTime) :
    (catchUp cron now rounds current skipped).2 =
      (matchesUpTo cron start ((catchUp cron now rounds current skipped).1 - 1)).card := by
  induction rounds generalizing current skipped with
  | zero => exact hskipped
  | succ rounds ih =>
      rw [catchUp] at hfound ⊢
      by_cases hpast : current ≠ zeroTime ∧ current ≤ now
      · rw [if_pos hpast] at hfound ⊢
        by_cases hnext : cron.next current = zeroTime
        · rw [hnext, catchUp_zeroTime] at hfound
          exact absurd rfl hfound
        · obtain ⟨hleast, -⟩ := CronSchedule.isLeast_next hnext
          have hlater : current < cron.next current := hleast.1.1
          apply ih hleast.1.2 (hafter.trans hlater) _ hfound
          rw [hskipped, ← card_matchesUpTo hafter hmatches]
          apply congrArg Finset.card
          apply matchesUpTo_congr
          intro instant _ hinstant
          constructor
          · intro hle
            omega
          · intro hle
            by_contra hbeyond
            have hfirst : cron.next current ≤ instant := hleast.2 ⟨by omega, hinstant⟩
            omega
      · rw [if_neg hpast]
        exact hskipped

/-- What the loop of `nextAfter` comes to when it is left to run, each call of `Next` being
left to run as well. -/
inductive CatchesUp (cron : CronSchedule) (now : ℤ) : ℤ → ℕ → ℤ × ℕ → Prop
  | done {next : ℤ} {skipped : ℕ} (hdone : ¬(next ≠ zeroTime ∧ next ≤ now)) :
      CatchesUp cron now next skipped (next, skipped)
  | onward {next later : ℤ} {skipped : ℕ} {answer : ℤ × ℕ}
      (hbehind : next ≠ zeroTime ∧ next ≤ now)
      (hnext : cron.Finds (next + CronSchedule.searchWindow) (truncateMinute (next + minute))
        later)
      (hcatches : CatchesUp cron now later (skipped + 1) answer) :
      CatchesUp cron now next skipped answer

/-- The number of rounds is no bound on the loop: from a match it ends within the minutes
that are left. -/
theorem catchesUp_catchUp {rounds : ℕ} {current : ℤ} (skipped : ℕ)
    (hmatches : cron.Matches current) (hrounds : now < current + rounds * minute) :
    CatchesUp cron now current skipped (catchUp cron now rounds current skipped) := by
  induction rounds generalizing current skipped with
  | zero =>
      apply CatchesUp.done
      simp only [Nat.cast_zero, zero_mul, add_zero] at hrounds
      omega
  | succ rounds ih =>
      rw [catchUp]
      by_cases hpast : current ≠ zeroTime ∧ current ≤ now
      · rw [if_pos hpast]
        apply CatchesUp.onward hpast (cron.finds_next current)
        by_cases hnext : cron.next current = zeroTime
        · rw [hnext, catchUp_zeroTime]
          exact .done fun hbehind => hbehind.1 rfl
        · obtain ⟨hleast, -⟩ := CronSchedule.isLeast_next hnext
          apply ih (skipped + 1) hleast.1.2
          have hstep := add_minute_le_of_matches hmatches hleast.1.2 hleast.1.1
          push_cast at hrounds
          linarith
      · rw [if_neg hpast]
        exact .done hpast

/-- For every schedule and all instants, in either order, `nextAfter` ends; an answer that is
not the zero time is the earliest match after both, and the count is the number of matches
that were passed over. -/
theorem nextAfter_lands (cron : CronSchedule) (start now : ℤ) :
    (∃ first, cron.Finds (start + CronSchedule.searchWindow) (truncateMinute (start + minute))
        first ∧ CatchesUp cron now first 0 (nextAfter cron start now)) ∧
      ((nextAfter cron start now).1 ≠ zeroTime →
        IsLeast {later | start < later ∧ now < later ∧ cron.Matches later}
            (nextAfter cron start now).1 ∧
          (nextAfter cron start now).2 = (matchesUpTo cron start now).card) := by
  by_cases hnext : cron.next start = zeroTime
  · have hzero : nextAfter cron start now = (zeroTime, 0) := by
      rw [nextAfter, hnext, catchUp_zeroTime]
    rw [hzero]
    refine ⟨⟨zeroTime, ?_, .done fun hbehind => hbehind.1 rfl⟩, fun hfound => absurd rfl hfound⟩
    rw [← hnext]
    exact cron.finds_next start
  · obtain ⟨hfirst, -⟩ := CronSchedule.isLeast_next hnext
    have hrounds := lt_next_add_rounds now hfirst.1.1
    refine ⟨⟨cron.next start, cron.finds_next start, catchesUp_catchUp 0 hfirst.1.2 hrounds⟩, ?_⟩
    intro hfound
    have hleast := (nextAfter_spec cron start now).resolve_left fun hzero => hfound hzero.1
    refine ⟨hleast.2, ?_⟩
    have hnone : 0 = (matchesUpTo cron start (cron.next start - 1)).card := by
      symm
      rw [Finset.card_eq_zero, Finset.eq_empty_iff_forall_notMem]
      intro instant hinstant
      rw [mem_matchesUpTo] at hinstant
      have hle : cron.next start ≤ instant := hfirst.2 ⟨hinstant.1, hinstant.2.2⟩
      omega
    have hcount := catchUp_count hfirst.1.2 hfirst.1.1 hnone hfound
    refine hcount.trans (congrArg Finset.card ?_)
    apply matchesUpTo_congr
    intro instant hstart hmatches
    have hbeyond : now < (nextAfter cron start now).1 := hleast.2.1.2.1
    change instant ≤ (nextAfter cron start now).1 - 1 ↔ instant ≤ now
    constructor
    · intro hle
      by_contra hlate
      have hfirst : (nextAfter cron start now).1 ≤ instant :=
        hleast.2.2 ⟨hstart, not_le.1 hlate, hmatches⟩
      omega
    · intro hle
      omega

end CatchUp

end Conduit.Cron
