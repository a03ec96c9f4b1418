import Conduit.Core.Decimal
import Conduit.Jobs.IdempotentEnqueue
import Conduit.Scheduler.NextOccurrence
import Conduit.Store.Schedules

/-!
# Firing a schedule

`Scheduler.fire` computes the next fire instant of a schedule that is due,
enqueues a job under a key made of the schedule and the instant that is due, and
then advances the schedule.  A schedule whose expression does not parse, or has no
next occurrence, is left as it is.
-/

namespace Conduit.Scheduler

open Models Relational JobStore JobService JobCalls IdempotentEnqueue ScheduleStore Cron

/-! ## The job of a fire -/

def idempotencyPrefix : String := "sched:"

/-- `Unix()`: whole seconds since 1970-01-01. -/
def unix (instant : ℤ) : ℤ :=
  instant / second - 62135596800

def fireKey (id : String) (fireAt : ℤ) : String :=
  idempotencyPrefix ++ id ++ ":" ++ toString (unix fireAt)

def fireJob (sched : Schedule) : Job where
  id := ""
  tenantID := sched.tenantID
  idempotencyKey := fireKey sched.id sched.nextRunAt
  task := sched.task
  state := .unset
  attempt := 0
  scheduledAt := some sched.nextRunAt
  startedAt := none
  leaseExpiresAt := none
  leaseToken := ""
  completedAt := none
  lastError := ""
  metadata := some
    ((Finmap.singleton "conduit.schedule" sched.name).insert "conduit.schedule_id" sched.id)
  createdAt := zeroTime
  updatedAt := zeroTime

/-- The tenant a fire's job is stored under. -/
def fireTenant (tenant : String) : String :=
  if tenant = "" then defaultTenant else tenant

inductive Unfireable
  | unparseable (err : ParseError)
  | noOccurrence
  deriving DecidableEq

/-- The instant a fire moves the schedule to. -/
def nextFire (sched : Schedule) (now : ℤ) : Except Unfireable ℤ :=
  match parse sched.cron with
  | .error err => .error (.unparseable err)
  | .ok cron =>
      let next := (nextAfter cron sched.nextRunAt now).1
      if next = zeroTime then .error .noOccurrence else .ok next

/-! ## Fire -/

structure Database where
  jobs : JobTable
  schedules : ScheduleTable

/-- `JobService.Enqueue` without interruption. -/
def enqueue (env : Env) (table : JobTable) (job : Job) :
    Except StoreError String × JobTable :=
  match (Call.enqueue job).run env 3 table with
  | (some (.id id), after) => (.ok id, after)
  | (some (.error err), after) => (.error err, after)
  | (_, after) => (.error .database, after)

inductive Outcome
  | notFired (why : Unfireable)
  | enqueueFailed (err : StoreError)
  | advanceLost
  | fired (jobID : String) (next : ℤ)
  deriving DecidableEq

def fire (env : Env) (database : Database) (sched : Schedule) (now : ℤ) :
    Outcome × Database :=
  match nextFire sched now with
  | .error why => (.notFired why, database)
  | .ok next =>
      match enqueue env database.jobs (fireJob sched) with
      | (.error err, jobs) => (.enqueueFailed err, { database with jobs })
      | (.ok jobID, jobs) =>
          match advanceSchedule database.schedules env.dbNow sched.id sched.nextRunAt
              next jobID with
          | (false, schedules) => (.advanceLost, { jobs, schedules })
          | (true, schedules) => (.fired jobID next, { jobs, schedules })

/-! ## Keys -/

theorem fireKey_ne_empty (id : String) (fireAt : ℤ) : fireKey id fireAt ≠ "" := by
  intro hempty
  have hchars := congrArg String.toList hempty
  simp [fireKey, idempotencyPrefix] at hchars

theorem toList_fireKey (id : String) (fireAt : ℤ) :
    (fireKey id fireAt).toList =
      idempotencyPrefix.toList ++ (id.toList ++ ':' :: (toString (unix fireAt)).toList) := by
  rw [fireKey, String.toList_append, String.toList_append, String.toList_append]
  simp

/-- The key of a fire tells its schedule and its second. -/
theorem fireKey_injective {id id' : String} {fireAt fireAt' : ℤ}
    (hkey : fireKey id fireAt = fireKey id' fireAt') :
    id = id' ∧ unix fireAt = unix fireAt' := by
  have hcolon : ∀ value : ℤ, ':' ∉ (toString value).toList := by
    intro value hmem
    rcases Decimal.mem_toString hmem with hdigit | hminus
    · exact absurd hdigit (by decide)
    · exact absurd hminus (by decide)
  have hchars := congrArg String.toList hkey
  rw [toList_fireKey, toList_fireKey] at hchars
  obtain ⟨hid, hunix⟩ := Decimal.append_separator_injective (hcolon _) (hcolon _)
    (List.append_cancel_left hchars)
  exact ⟨String.toList_injective hid, Decimal.toString_injective hunix⟩

theorem prefix_fireKey (id : String) (fireAt : ℤ) :
    idempotencyPrefix.toList <+: (fireKey id fireAt).toList := by
  rw [toList_fireKey]
  exact List.prefix_append ..

theorem fireKey_eq_of_unix (id : String) {fireAt fireAt' : ℤ}
    (hunix : unix fireAt = unix fireAt') : fireKey id fireAt = fireKey id fireAt' := by
  rw [fireKey, fireKey, hunix]

theorem unix_mono {instant later : ℤ} (hle : instant ≤ later) : unix instant ≤ unix later := by
  simp only [unix, second]
  omega

/-- A later whole minute is in a later second. -/
theorem unix_lt {instant next : ℤ} (hlt : instant < next) (haligned : next % minute = 0) :
    unix instant < unix next := by
  simp only [unix, minute, second, Int.reduceMul] at haligned ⊢
  omega

/-! ## What a fire does -/

theorem fireTenant_ne_empty (tenant : String) : fireTenant tenant ≠ "" := by
  rw [fireTenant]
  split
  · decide
  · assumption

theorem tenantID_fireJob (sched : Schedule) :
    (withTenant (fireJob sched)).tenantID = fireTenant sched.tenantID := by
  by_cases htenant : sched.tenantID = ""
  · simp [withTenant, fireTenant, fireJob, htenant]
  · simp [withTenant, fireTenant, fireJob, htenant]

theorem idempotencyKey_fireJob (sched : Schedule) :
    (withTenant (fireJob sched)).idempotencyKey = fireKey sched.id sched.nextRunAt := by
  simp only [withTenant]
  split <;> rfl

theorem id_fireJob (sched : Schedule) : (withTenant (fireJob sched)).id = "" := by
  simp only [withTenant]
  split <;> rfl

/-- An `Enqueue` of a fire's job that returns an id leaves a row under its key. -/
theorem hasKey_of_enqueue {env : Env} {table jobs : JobTable} {sched : Schedule}
    {jobID : String} (henqueue : enqueue env table (fireJob sched) = (.ok jobID, jobs)) :
    ∃ row ∈ jobs.rows,
      HasKey (fireTenant sched.tenantID) (fireKey sched.id sched.nextRunAt) row ∧
        row.id = jobID := by
  rw [enqueue] at henqueue
  split at henqueue
  · rename_i id after hrun
    cases henqueue
    rw [← tenantID_fireJob, ← idempotencyKey_fireJob]
    refine hasKey_of_run rfl (withTenant_ne_empty _) ?_ hrun
    rw [idempotencyKey_fireJob]
    exact fireKey_ne_empty _ _
  · cases henqueue
  · cases henqueue

/-- With an id that is not taken an `Enqueue` under a key succeeds. -/
theorem exists_enqueue_ok {env : Env} {table : JobTable} {job : Job}
    (hid : (withTenant job).id = "") (hkey : (withTenant job).idempotencyKey ≠ "")
    (hfresh : ∀ row ∈ table.rows, row.id ≠ env.jobID) :
    ∃ jobID jobs, enqueue env table job = (.ok jobID, jobs) := by
  rw [enqueue, Call.run]
  simp only [Call.effect, if_neg hkey, enqueueLookupEffect]
  rcases hlookup : getJobByIdempotencyKey table (withTenant job).tenantID
      (withTenant job).idempotencyKey with err | existing
  · obtain ⟨rfl, hmissed⟩ := getJobByIdempotencyKey_eq_error hlookup
    have hpreparedID : (prepareJob env (withTenant job)).id = env.jobID := by
      simp [prepareJob, hid]
    have hnewID : ∀ row ∈ table.rows, row.id ≠ (prepareJob env (withTenant job)).id := by
      rw [hpreparedID]
      exact hfresh
    obtain ⟨inserted, hcreate⟩ := exists_createJob_eq_ok env.storeNow hnewID
      (fun row hrow hrowKey htenant => hmissed row hrow hrowKey (.inr htenant))
    simp only [Option.isSome_some, and_self, if_true, Call.run, Call.effect,
      enqueueInsertEffect, hcreate]
    exact ⟨_, _, rfl⟩
  · exact ⟨existing.id, table, rfl⟩

theorem nextFire_eq_ok {sched : Schedule} {now next : ℤ} {cron : CronSchedule}
    (hparse : parse sched.cron = .ok cron) (hnext : nextFire sched now = .ok next) :
    next = (nextAfter cron sched.nextRunAt now).1 ∧ next ≠ zeroTime ∧
      sched.nextRunAt < next ∧ cron.Matches next := by
  simp only [nextFire, hparse] at hnext
  split at hnext
  · cases hnext
  · rename_i hnonzero
    cases hnext
    rcases nextAfter_spec cron sched.nextRunAt now with ⟨hzero, -⟩ | ⟨-, hleast⟩
    · exact absurd hzero hnonzero
    · exact ⟨rfl, hnonzero, hleast.1.1, hleast.1.2.2⟩

theorem timestamptz_of_minute {instant : ℤ} (haligned : instant % minute = 0) :
    timestamptz instant = instant := by
  simp only [timestamptz, minute, second, Int.reduceMul] at haligned ⊢
  omega

theorem timestamptz_of_matches {cron : CronSchedule} {instant : ℤ}
    (hmatches : cron.Matches instant) : timestamptz instant = instant :=
  timestamptz_of_minute hmatches.1

/-- The next fire instant is a whole minute after the one that is due. -/
theorem nextFire_later {sched : Schedule} {now next : ℤ} (hnext : nextFire sched now = .ok next) :
    sched.nextRunAt < next ∧ next % minute = 0 := by
  rcases hparse : parse sched.cron with err | cron
  · simp only [nextFire, hparse] at hnext
    cases hnext
  · obtain ⟨-, -, hlater, hmatches⟩ := nextFire_eq_ok hparse hnext
    exact ⟨hlater, hmatches.1⟩

/-- It is stored as it is, and is later than the clock. -/
theorem lt_nextFire {sched : Schedule} {now next : ℤ} (hnext : nextFire sched now = .ok next) :
    now < timestamptz next := by
  rw [timestamptz_of_minute (nextFire_later hnext).2]
  rw [nextFire] at hnext
  split at hnext
  · cases hnext
  · rename_i cron hparse
    dsimp only at hnext
    split at hnext
    · cases hnext
    · rename_i hnonzero
      cases hnext
      rcases nextAfter_spec cron sched.nextRunAt now with ⟨hzero, -⟩ | ⟨-, hleast⟩
      · exact absurd hzero hnonzero
      · exact hleast.1.2.1

section Fire

variable {env : Env} {database : Database} {sched : Schedule} {now : ℤ}

theorem fire_eq_notFired_iff {why : Unfireable} :
    (fire env database sched now).1 = .notFired why ↔ nextFire sched now = .error why := by
  rw [fire]
  rcases nextFire sched now with other | next
  · simp
  · rcases enqueue env database.jobs (fireJob sched) with ⟨err | jobID, jobs⟩
    · simp
    · dsimp only
      split
      · simp
      · simp

/-- A fire writes the schedules only through `AdvanceSchedule`. -/
theorem fire_schedules (env : Env) (database : Database) (sched : Schedule) (now : ℤ) :
    (fire env database sched now).2.schedules = database.schedules ∨
      ∃ next jobID, nextFire sched now = .ok next ∧
        (fire env database sched now).2.schedules =
          (advanceSchedule database.schedules env.dbNow sched.id sched.nextRunAt next
            jobID).2 := by
  rw [fire]
  rcases nextFire sched now with why | next
  · exact .inl rfl
  · rcases enqueue env database.jobs (fireJob sched) with ⟨err | jobID, jobs⟩
    · exact .inl rfl
    · right
      refine ⟨next, jobID, rfl, ?_⟩
      rcases hadvance : advanceSchedule database.schedules env.dbNow sched.id
          sched.nextRunAt next jobID with ⟨advanced, schedules⟩
      cases advanced <;> simp [hadvance]

theorem fire_eq_fired {jobID : String} {next : ℤ}
    (hfired : (fire env database sched now).1 = .fired jobID next) :
    nextFire sched now = .ok next ∧
      enqueue env database.jobs (fireJob sched) =
        (.ok jobID, (fire env database sched now).2.jobs) ∧
      advanceSchedule database.schedules env.dbNow sched.id sched.nextRunAt next jobID =
        (true, (fire env database sched now).2.schedules) := by
  rw [fire] at hfired ⊢
  rcases hnext : nextFire sched now with why | planned
  · simp [hnext] at hfired
  · simp only [hnext] at hfired ⊢
    rcases henqueue : enqueue env database.jobs (fireJob sched) with ⟨err | id, jobs⟩
    · simp [henqueue] at hfired
    · simp only [henqueue] at hfired ⊢
      rcases hadvance : advanceSchedule database.schedules env.dbNow sched.id
          sched.nextRunAt planned id with ⟨advanced, schedules⟩
      cases advanced with
      | false => simp [hadvance] at hfired
      | true =>
          simp only [hadvance, Outcome.fired.injEq] at hfired ⊢
          obtain ⟨rfl, rfl⟩ := hfired
          exact ⟨rfl, rfl, hadvance⟩

end Fire

/-! ## A concrete schedule -/

/-- A table with one schedule. -/
def soleSchedule (row : ScheduleRow) : ScheduleTable where
  rows := [row]
  keyed := List.pairwise_singleton ..
  indexed := List.pairwise_singleton ..

/-- A schedule that enqueues a plain job, next due at the given instant. -/
def plainSchedule (expr : String) (nextRunAt : ℤ) : ScheduleRow where
  id := "schedule-1"
  name := "nightly"
  cronExpr := expr
  taskName := "report"
  taskQueue := "default"
  taskPayload := none
  taskMaxRetries := 0
  taskTimeoutNs := 0
  taskMetadata := marshalMap none
  enabled := true
  nextRunAt := timestamptz nextRunAt
  lastRunAt := none
  lastJobID := none
  createdAt := zeroTime
  updatedAt := zeroTime
  tenantID := "default"
  taskPriority := 0

end Conduit.Scheduler
