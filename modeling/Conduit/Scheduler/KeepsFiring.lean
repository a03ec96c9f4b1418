import Mathlib.Data.Fintype.EquivFin
import Conduit.Core.Transition
import Conduit.Scheduler.Fire

/-!
# Which schedules keep firing

A schedule is accepted when `Next` finds an occurrence after its creation.  From
then on each fire needs another one: after the instant that is due, and after
every occurrence that passed while no scheduler ran.  `Next` looks ahead four
times 365 days, one day less than from one leap day to the next, so an accepted
schedule can have no next occurrence when it comes due.  It then stays due and
never fires.
-/

namespace Conduit.ScheduledFires

open Models Relational JobStore JobService JobCalls IdempotentEnqueue ScheduleStore Cron Scheduler
open Transition

/-! ## Fires among other work -/

inductive Label
  /-- A dispatch finds a schedule due and fires it. -/
  | fire (env : Env) (now limit : ℤ) (sched : Schedule)
  /-- Some other caller runs a statement on the job table. -/
  | call (env : Env) (call : Call)

def step (database : Database) : Label → Database
  | .fire env now _ sched => (fire env database sched now).2
  | .call env call => { database with jobs := (call.effect env database.jobs).table }

/-- The database has the schedule that the API accepted at `created`. -/
def Created (expr : String) (cron : CronSchedule) (created : ℤ) (id : String)
    (database : Database) : Prop :=
  ∃ row ∈ database.schedules.rows, row.id = id ∧ row.cronExpr = expr ∧ row.enabled = true ∧
    row.nextRunAt = timestamptz (cron.next created)

def machine (Init : Database → Prop) : Machine Database Label where
  Init := Init
  Allowed database
    | .fire _ now limit sched => sched ∈ dueSchedules database.schedules now limit
    | .call _ _ => True
  step := step

/-- The fire enqueues a job for the instant that is due and moves the schedule to
a later occurrence, provided `Enqueue` and `AdvanceSchedule` succeed. -/
def Fires (cron : CronSchedule) (env : Env) (database : Database) (sched : Schedule)
    (now : ℤ) : Prop :=
  (∀ why, (fire env database sched now).1 ≠ .notFired why) ∧
    ∀ jobID next, (fire env database sched now).1 = .fired jobID next →
      (∃ job ∈ (fire env database sched now).2.jobs.rows,
        HasKey (fireTenant sched.tenantID) (fireKey sched.id sched.nextRunAt) job ∧
          job.id = jobID) ∧
      sched.nextRunAt < next ∧ cron.Matches next ∧
      ∃ row ∈ (fire env database sched now).2.schedules.rows,
        row.id = sched.id ∧ row.nextRunAt = next

/-- The schedule fires whenever it is found due, in every run from its creation. -/
def KeepsFiring (expr : String) (cron : CronSchedule) (created : ℤ) : Prop :=
  ∀ id database, (machine (Created expr cron created id)).Reachable database →
    ∀ env now limit, ∀ sched ∈ dueSchedules database.schedules now limit, sched.id = id →
      Fires cron env database sched now

/-- The next occurrence exists and `Next` gets to it. -/
def NextInWindow (cron : CronSchedule) (instant : ℤ) : Prop :=
  ∃ later, IsLeast {later | instant < later ∧ cron.Matches later} later ∧
    later < instant + CronSchedule.searchWindow ∧ later ≠ zeroTime

theorem nextInWindow_iff (cron : CronSchedule) (instant : ℤ) :
    NextInWindow cron instant ↔ cron.next instant ≠ zeroTime := by
  constructor
  · rintro ⟨later, hleast, hwindow, hnonzero⟩
    rw [CronSchedule.next_eq_of_isLeast hleast hwindow]
    exact hnonzero
  · intro hnext
    obtain ⟨hleast, hwindow⟩ := CronSchedule.isLeast_next hnext
    exact ⟨cron.next instant, hleast, hwindow, hnext⟩

/-! ## The schedule's row through a run -/

/-- The row of the schedule, at an occurrence not before the first one. -/
structure RowInv (expr : String) (cron : CronSchedule) (first : ℤ) (id : String)
    (row : ScheduleRow) : Prop where
  id : row.id = id
  expr : row.cronExpr = expr
  enabled : row.enabled = true
  occurs : cron.Matches row.nextRunAt
  first_le : first ≤ row.nextRunAt

theorem RowInv.parse_cron {expr : String} {cron : CronSchedule} {first : ℤ} {id : String}
    {row : ScheduleRow} (hrowInv : RowInv expr cron first id row)
    (hparse : parse expr = .ok cron) : parse (scanSchedule row).cron = .ok cron := by
  rw [← hparse, ← hrowInv.expr]
  rfl

section Run

variable {expr : String} {cron : CronSchedule} {created : ℤ} {id : String}
  {database : Database}

theorem exists_rowInv_fire (hparse : parse expr = .ok cron) {first : ℤ}
    (hinv : ∃ row ∈ database.schedules.rows, RowInv expr cron first id row)
    {env : Env} {now limit : ℤ} {sched : Schedule}
    (hdue : sched ∈ dueSchedules database.schedules now limit) :
    ∃ row ∈ (fire env database sched now).2.schedules.rows, RowInv expr cron first id row := by
  obtain ⟨row, hrow, hrowInv⟩ := hinv
  obtain ⟨read, hread, -, rfl⟩ := mem_dueSchedules hdue
  rcases fire_schedules env database (scanSchedule read) now with
    hsame | ⟨next, jobID, hnext, hadvance⟩
  · rw [hsame]
    exact ⟨row, hrow, hrowInv⟩
  · rw [hadvance]
    refine ⟨_, Table.mem_exec.2 ⟨row, hrow, rfl⟩, ?_⟩
    split
    · rename_i hselects
      have hself : read = row := database.schedules.key_unique hread hrow hselects.1.symm
      rw [hself] at hnext
      have hcron := hrowInv.parse_cron hparse
      obtain ⟨-, -, hafter, hmatches⟩ := nextFire_eq_ok hcron hnext
      have hnextRunAt : timestamptz next = next := timestamptz_of_matches hmatches
      refine ⟨hrowInv.id, hrowInv.expr, hrowInv.enabled, ?_, ?_⟩
      · change cron.Matches (timestamptz next)
        rw [hnextRunAt]
        exact hmatches
      · change first ≤ timestamptz next
        rw [hnextRunAt]
        exact le_trans hrowInv.first_le (le_of_lt hafter)
    · exact hrowInv

theorem exists_rowInv (hparse : parse expr = .ok cron)
    (haccepted : cron.next created ≠ zeroTime)
    (hreach : (machine (Created expr cron created id)).Reachable database) :
    ∃ row ∈ database.schedules.rows, RowInv expr cron (cron.next created) id row := by
  refine hreach.invariant (fun database =>
    ∃ row ∈ database.schedules.rows, RowInv expr cron (cron.next created) id row) ?_ ?_
  · rintro database ⟨row, hrow, hid, hexpr, henabled, hnextRunAt⟩
    have hmatches := (CronSchedule.isLeast_next haccepted).1.1.2
    rw [timestamptz_of_matches hmatches] at hnextRunAt
    refine ⟨row, hrow, hid, hexpr, henabled, ?_, ?_⟩
    · rw [hnextRunAt]
      exact hmatches
    · rw [hnextRunAt]
  · intro before label _ hallowed hinv
    cases label with
    | fire env now limit sched => exact exists_rowInv_fire hparse hinv hallowed
    | call env call => exact hinv

/-- The row a dispatch found due under the schedule's id. -/
theorem due_rowInv (hparse : parse expr = .ok cron)
    (haccepted : cron.next created ≠ zeroTime)
    (hreach : (machine (Created expr cron created id)).Reachable database) {now limit : ℤ}
    {sched : Schedule} (hdue : sched ∈ dueSchedules database.schedules now limit)
    (hid : sched.id = id) :
    ∃ row ∈ database.schedules.rows, sched = scanSchedule row ∧
      RowInv expr cron (cron.next created) id row := by
  obtain ⟨read, hread, -, rfl⟩ := mem_dueSchedules hdue
  obtain ⟨row, hrow, hrowInv⟩ := exists_rowInv hparse haccepted hreach
  have hself : read = row :=
    database.schedules.key_unique hread hrow (hid.trans hrowInv.id.symm)
  rw [hself]
  exact ⟨row, hrow, rfl, hrowInv⟩

/-! ## Occurrences inside the window are enough -/

theorem fires_of_nextInWindow (hparse : parse expr = .ok cron) {first : ℤ} {row : ScheduleRow}
    (hrow : row ∈ database.schedules.rows) (hrowInv : RowInv expr cron first id row)
    (hwindow : ∀ instant, cron.Matches instant → first ≤ instant → NextInWindow cron instant)
    (env : Env) (now : ℤ) : Fires cron env database (scanSchedule row) now := by
  have hcron := hrowInv.parse_cron hparse
  constructor
  · intro why hnotFired
    rw [fire_eq_notFired_iff] at hnotFired
    simp only [nextFire, hcron] at hnotFired
    split at hnotFired
    · rename_i hzero
      rcases nextAfter_spec cron (scanSchedule row).nextRunAt now with
        ⟨-, passed, hpassed, hnone⟩ | ⟨hnonzero, -⟩
      · -- `Next` failed at an occurrence: the one due or one that passed since.
        have hoccurs : cron.Matches passed ∧ first ≤ passed := by
          rcases hpassed with rfl | ⟨hmatches, hafter, -⟩
          · exact ⟨hrowInv.occurs, hrowInv.first_le⟩
          · exact ⟨hmatches, le_trans hrowInv.first_le (le_of_lt hafter)⟩
        exact (nextInWindow_iff cron passed).1 (hwindow passed hoccurs.1 hoccurs.2) hnone
      · exact hnonzero hzero
    · cases hnotFired
  · intro jobID next hfired
    obtain ⟨hnext, henqueue, hadvance⟩ := fire_eq_fired hfired
    obtain ⟨-, -, hafter, hmatches⟩ := nextFire_eq_ok hcron hnext
    refine ⟨hasKey_of_enqueue henqueue, hafter, hmatches, ?_⟩
    have hschedules : (fire env database (scanSchedule row) now).2.schedules =
        database.schedules.exec
          (advance row.id row.nextRunAt next jobID env.dbNow) :=
      (congrArg Prod.snd hadvance).symm
    have hselects : (advance row.id row.nextRunAt next jobID env.dbNow).selects row :=
      ⟨rfl, (timestamptz_of_matches hrowInv.occurs).symm⟩
    rw [hschedules]
    refine ⟨_, Table.mem_exec.2 ⟨row, hrow, if_pos hselects⟩, rfl, ?_⟩
    exact timestamptz_of_matches hmatches

/-! ## They are necessary -/

theorem nextAfter_self (cron : CronSchedule) (instant : ℤ) :
    (nextAfter cron instant instant).1 = cron.next instant := by
  by_cases hnext : cron.next instant = zeroTime
  · rw [nextAfter, hnext, catchUp_zeroTime]
  · have hafter := (CronSchedule.isLeast_next hnext).1.1.1
    have hrounds : ((instant - instant) / minute + 1).toNat = 0 + 1 := by
      simp
    rw [nextAfter, hrounds, catchUp, if_neg]
    intro hpast
    exact absurd hpast.2 (not_le.2 hafter)

/-- With a job id that is not taken, a fire that has a next instant goes through. -/
theorem exists_fired {row : ScheduleRow} (hrow : row ∈ database.schedules.rows)
    (hnextRunAt : timestamptz row.nextRunAt = row.nextRunAt) {now next : ℤ}
    (hnext : nextFire (scanSchedule row) now = .ok next) :
    ∃ env jobID, (fire env database (scanSchedule row) now).1 = .fired jobID next := by
  obtain ⟨jobID, hfresh⟩ :=
    Infinite.exists_notMem_finset (database.jobs.rows.map Row.id).toFinset
  have hfree : ∀ job ∈ database.jobs.rows,
      job.id ≠ (JobMachine.plainEnv 0 now jobID).jobID := by
    intro job hjob hsame
    apply hfresh
    rw [List.mem_toFinset, List.mem_map]
    exact ⟨job, hjob, hsame⟩
  have hkey : (withTenant (fireJob (scanSchedule row))).idempotencyKey ≠ "" := by
    rw [idempotencyKey_fireJob]
    exact fireKey_ne_empty _ _
  obtain ⟨enqueued, jobs, henqueue⟩ := exists_enqueue_ok (id_fireJob _) hkey hfree
  have hadvance : (advanceSchedule database.schedules (JobMachine.plainEnv 0 now jobID).dbNow
      (scanSchedule row).id (scanSchedule row).nextRunAt next enqueued).1 = true :=
    (advanceSchedule_fst ..).2 ⟨row, hrow, rfl, hnextRunAt.symm⟩
  refine ⟨JobMachine.plainEnv 0 now jobID, enqueued, ?_⟩
  simp only [fire, hnext, henqueue]
  split
  · rename_i hlost
    rw [hlost] at hadvance
    cases hadvance
  · rfl

/-- A schedule that keeps firing has a next occurrence in the window, and a run
in which it is next due at that one. -/
theorem nextInWindow_of_keepsFiring (hparse : parse expr = .ok cron)
    (haccepted : cron.next created ≠ zeroTime) (hkeeps : KeepsFiring expr cron created)
    (hreach : (machine (Created expr cron created id)).Reachable database)
    {row : ScheduleRow} (hrow : row ∈ database.schedules.rows)
    (hrowInv : RowInv expr cron (cron.next created) id row) :
    NextInWindow cron row.nextRunAt ∧
      ∃ later, (machine (Created expr cron created id)).Reachable later ∧
        ∃ row' ∈ later.schedules.rows, RowInv expr cron (cron.next created) id row' ∧
          row'.nextRunAt = cron.next row.nextRunAt := by
  have hstored := timestamptz_of_matches hrowInv.occurs
  have hdue : scanSchedule row ∈ dueSchedules database.schedules row.nextRunAt
      database.schedules.rows.length := by
    apply mem_dueSchedules_of_due hrow _ le_rfl
    exact ⟨hrowInv.enabled, le_of_eq hstored.symm⟩
  have hcron := hrowInv.parse_cron hparse
  rcases hnext : nextFire (scanSchedule row) row.nextRunAt with why | next
  · have hfires := hkeeps id database hreach (JobMachine.plainEnv 0 0 "") row.nextRunAt _ _
      hdue hrowInv.id
    exact absurd (fire_eq_notFired_iff.2 hnext) (hfires.1 why)
  · obtain ⟨heq, hnextNonzero, -, -⟩ := nextFire_eq_ok hcron hnext
    have hself : next = cron.next row.nextRunAt :=
      heq.trans (nextAfter_self cron row.nextRunAt)
    have hnonzero : cron.next row.nextRunAt ≠ zeroTime := by
      rw [← hself]
      exact hnextNonzero
    refine ⟨(nextInWindow_iff cron row.nextRunAt).2 hnonzero, ?_⟩
    obtain ⟨env, jobID, hfired⟩ := exists_fired hrow hstored hnext
    have hlater := Machine.Reachable.next
      (Label.fire env row.nextRunAt database.schedules.rows.length (scanSchedule row)) hreach
      hdue
    have hfires := hkeeps id database hreach env row.nextRunAt _ _ hdue hrowInv.id
    obtain ⟨-, -, -, row', hrow', hid', hnextRunAt'⟩ := hfires.2 jobID next hfired
    obtain ⟨kept, hkept, hkeptInv⟩ := exists_rowInv hparse haccepted hlater
    have hsame : kept = row' := Table.key_unique _ hkept hrow'
      (hkeptInv.id.trans (hrowInv.id.symm.trans hid'.symm))
    rw [hsame] at hkeptInv
    exact ⟨_, hlater, row', hrow', hkeptInv, hnextRunAt'.trans hself⟩

/-- A run that has taken the schedule to `instant`, or `count` minutes on the way
to it. -/
def Walked (expr : String) (cron : CronSchedule) (created : ℤ) (id : String) (instant : ℤ)
    (count : ℕ) : Prop :=
  ∃ database, (machine (Created expr cron created id)).Reachable database ∧
    ∃ row ∈ database.schedules.rows, RowInv expr cron (cron.next created) id row ∧
      (row.nextRunAt = instant ∨
        (row.nextRunAt < instant ∧ cron.next created + count * minute ≤ row.nextRunAt))

theorem walked_zero (hparse : parse expr = .ok cron)
    (haccepted : cron.next created ≠ zeroTime) {instant : ℤ}
    (hfirst : cron.next created ≤ instant) :
    Walked expr cron created "schedule-1" instant 0 := by
  have hstart : (machine (Created expr cron created "schedule-1")).Reachable
      ⟨Table.empty jobs, soleSchedule (plainSchedule expr (cron.next created))⟩ :=
    .start ⟨_, List.mem_singleton_self _, rfl, rfl, rfl, rfl⟩
  obtain ⟨row, hrow, hrowInv⟩ := exists_rowInv hparse haccepted hstart
  refine ⟨_, hstart, row, hrow, hrowInv, ?_⟩
  have hnextRunAt : row.nextRunAt = cron.next created := by
    rw [List.mem_singleton.1 hrow]
    exact timestamptz_of_matches (CronSchedule.isLeast_next haccepted).1.1.2
  rw [hnextRunAt]
  rcases eq_or_lt_of_le hfirst with heq | hlt
  · exact .inl heq
  · exact .inr ⟨hlt, by simp⟩

/-- Occurrences are whole minutes, so each fire gets a minute closer at least. -/
theorem Walked.succ (hparse : parse expr = .ok cron)
    (haccepted : cron.next created ≠ zeroTime) (hkeeps : KeepsFiring expr cron created)
    {instant : ℤ} (hmatches : cron.Matches instant) {count : ℕ}
    (hwalked : Walked expr cron created id instant count) :
    Walked expr cron created id instant (count + 1) := by
  obtain ⟨database, hreach, row, hrow, hrowInv, heq | ⟨hlt, hcount⟩⟩ := hwalked
  · exact ⟨database, hreach, row, hrow, hrowInv, .inl heq⟩
  · obtain ⟨hwindow, later, hlater, row', hrow', hrowInv', hnextRunAt'⟩ :=
      nextInWindow_of_keepsFiring hparse haccepted hkeeps hreach hrow hrowInv
    have hleast := (CronSchedule.isLeast_next
      ((nextInWindow_iff cron row.nextRunAt).1 hwindow)).1
    have hle : row'.nextRunAt ≤ instant := by
      rw [hnextRunAt']
      exact hleast.2 ⟨hlt, hmatches⟩
    have hprogress : row.nextRunAt + minute ≤ row'.nextRunAt := by
      have hafter := hleast.1.1
      rw [← hnextRunAt'] at hafter
      have haligned := hrowInv.occurs.1
      have haligned' := hrowInv'.occurs.1
      simp only [minute, second, Int.reduceMul] at haligned haligned' ⊢
      omega
    refine ⟨later, hlater, row', hrow', hrowInv', ?_⟩
    rcases eq_or_lt_of_le hle with heq | hless
    · exact .inl heq
    · right
      refine ⟨hless, ?_⟩
      push_cast
      linarith

/-- Firing at once whenever it is due takes a schedule through all its
occurrences. -/
theorem exists_due_at (hparse : parse expr = .ok cron)
    (haccepted : cron.next created ≠ zeroTime) (hkeeps : KeepsFiring expr cron created)
    {instant : ℤ} (hmatches : cron.Matches instant) (hfirst : cron.next created ≤ instant) :
    ∃ id database, (machine (Created expr cron created id)).Reachable database ∧
      ∃ row ∈ database.schedules.rows,
        RowInv expr cron (cron.next created) id row ∧ row.nextRunAt = instant := by
  have hwalked : ∀ count, Walked expr cron created "schedule-1" instant count := by
    intro count
    induction count with
    | zero => exact walked_zero hparse haccepted hfirst
    | succ count ih => exact ih.succ hparse haccepted hkeeps hmatches
  obtain ⟨database, hreach, row, hrow, hrowInv, heq | ⟨hlt, hcount⟩⟩ :=
    hwalked ((instant - cron.next created) / minute + 1).toNat
  · exact ⟨"schedule-1", database, hreach, row, hrow, hrowInv, heq⟩
  · simp only [minute, second, Int.reduceMul] at hcount
    omega

end Run

/-- An accepted schedule keeps firing exactly when, from its first occurrence on,
each occurrence is followed by another inside the search window. -/
theorem keepsFiring_iff {expr : String} {cron : CronSchedule} {created : ℤ}
    (hparse : parse expr = .ok cron) (haccepted : cron.next created ≠ zeroTime) :
    KeepsFiring expr cron created ↔
      ∀ instant, cron.Matches instant → cron.next created ≤ instant →
        NextInWindow cron instant := by
  constructor
  · intro hkeeps instant hmatches hfirst
    obtain ⟨id, database, hreach, row, hrow, hrowInv, hnextRunAt⟩ :=
      exists_due_at hparse haccepted hkeeps hmatches hfirst
    rw [← hnextRunAt]
    exact (nextInWindow_of_keepsFiring hparse haccepted hkeeps hreach hrow hrowInv).1
  · intro hwindow id database hreach env now limit sched hdue hid
    obtain ⟨row, hrow, rfl, hrowInv⟩ := due_rowInv hparse haccepted hreach hdue hid
    exact fires_of_nextInWindow hparse hrow hrowInv hwindow env now

/-! ## Every minute -/

/-- What `* * * * *` parses to. -/
def everyMinute : CronSchedule where
  minutes := List.replicate 60 true
  hours := List.replicate 24 true
  doms := List.replicate 31 true
  months := List.replicate 12 true
  dows := List.replicate 7 true

theorem contains_replicate {count : ℕ} {offset : ℤ} (hnonneg : 0 ≤ offset)
    (hlt : offset < count) :
    CronSchedule.contains (List.replicate count true) offset = true := by
  have hindex : offset.toNat < count := by
    omega
  simp [CronSchedule.contains, hindex]

theorem matches_everyMinute {instant : ℤ} (haligned : instant % minute = 0) :
    everyMinute.Matches instant := by
  obtain ⟨hmonth, hday, hlength⟩ := Calendar.dateOfDay_valid (instant / (24 * hour))
  have hshort := Calendar.monthLength_le (dateOf instant).year (dateOf instant).month
  have hdayLe : (dateOf instant).day ≤ 31 := le_trans hlength hshort
  have hhour : 0 ≤ hourOf instant ∧ hourOf instant < 24 := by
    simp only [hourOf, hour, minute, second, Int.reduceMul]
    omega
  have hminute : 0 ≤ minuteOf instant ∧ minuteOf instant < 60 := by
    simp only [minuteOf, hour, minute, second, Int.reduceMul]
    omega
  have hweekday : 0 ≤ weekdayOf instant ∧ weekdayOf instant < 7 := by
    simp only [weekdayOf, Calendar.weekday]
    omega
  refine ⟨haligned, ?_, ?_, ?_, ?_⟩
  · apply contains_replicate
    · exact sub_nonneg.2 hmonth.1
    · exact Int.sub_one_lt_of_le hmonth.2
  · rw [CronSchedule.allowsDay, decide_eq_true_eq]
    refine ⟨hdayLe, ?_, contains_replicate hweekday.1 hweekday.2⟩
    apply contains_replicate
    · exact sub_nonneg.2 hday
    · exact Int.sub_one_lt_of_le hdayLe
  · exact contains_replicate hhour.1 hhour.2
  · exact contains_replicate hminute.1 hminute.2

theorem nextInWindow_everyMinute {instant : ℤ} (hmatches : everyMinute.Matches instant)
    (hpositive : 0 < instant) : NextInWindow everyMinute instant := by
  have haligned := hmatches.1
  refine ⟨instant + minute, ⟨⟨?_, ?_⟩, ?_⟩, ?_, ?_⟩
  · exact lt_add_of_pos_right instant (by decide)
  · apply matches_everyMinute
    rw [Int.add_emod_right]
    exact haligned
  · intro later hlater
    have hlaterAligned := hlater.2.1
    have hafter := hlater.1
    simp only [minute, second, Int.reduceMul] at haligned hlaterAligned ⊢
    omega
  · exact add_lt_add_right (by decide) instant
  · simp only [minute, second, Int.reduceMul, zeroTime]
    omega

/-- A schedule for every minute, created on the first of June 2027. -/
theorem keepsFiring_everyMinute :
    KeepsFiring "* * * * *" everyMinute (timeDate 2027 6 1 0) := by
  refine (keepsFiring_iff (by decide +kernel) (by decide +kernel)).2 ?_
  intro instant hmatches hfirst
  apply nextInWindow_everyMinute hmatches
  exact lt_of_lt_of_le (by decide +kernel) hfirst

/-! ## Leap days -/

/-- What `0 0 29 2 *` parses to. -/
def leapDay : CronSchedule where
  minutes := true :: List.replicate 59 false
  hours := true :: List.replicate 23 false
  doms := List.replicate 28 false ++ [true, false, false]
  months := [false, true] ++ List.replicate 10 false
  dows := List.replicate 7 true

/-- The schedule for the 29th of February 2028, when it is due. -/
def leapDayDatabase : Database where
  jobs := Table.empty jobs
  schedules := soleSchedule (plainSchedule "0 0 29 2 *" (timeDate 2028 2 29 0))

/-- A leap-day schedule created in 2027 is accepted and never fires. -/
theorem not_forall_keepsFiring :
    ¬ ∀ expr cron created, parse expr = .ok cron → cron.next created ≠ zeroTime →
      KeepsFiring expr cron created := by
  intro hkeeps
  have hfirst : leapDay.next (timeDate 2027 6 1 0) = timeDate 2028 2 29 0 := by
    decide +kernel
  have hreach : (machine (Created "0 0 29 2 *" leapDay (timeDate 2027 6 1 0)
      "schedule-1")).Reachable leapDayDatabase := by
    refine .start ⟨_, List.mem_singleton_self _, rfl, rfl, rfl, ?_⟩
    rw [hfirst]
    rfl
  have hdue : scanSchedule (plainSchedule "0 0 29 2 *" (timeDate 2028 2 29 0)) ∈
      dueSchedules leapDayDatabase.schedules (timeDate 2028 2 29 0) 1 := by
    decide +kernel
  have hfires := hkeeps "0 0 29 2 *" leapDay (timeDate 2027 6 1 0) (by decide +kernel)
    (by decide +kernel) "schedule-1" leapDayDatabase hreach
    (JobMachine.plainEnv 1 (timeDate 2028 2 29 0) "job-1") (timeDate 2028 2 29 0) 1 _ hdue rfl
  have hnext : nextFire (scanSchedule (plainSchedule "0 0 29 2 *" (timeDate 2028 2 29 0)))
      (timeDate 2028 2 29 0) = .error .noOccurrence := by
    decide +kernel
  exact hfires.1 .noOccurrence (fire_eq_notFired_iff.2 hnext)

end Conduit.ScheduledFires
