import Conduit.Store.Statements

/-!
# The job service

`JobService` sits between the store and its callers.  What it reads from the
world outside the database (clocks, random bytes, backoff delays, row locks of
other transactions) is gathered in `Env`, one value for each statement a call
runs.  `Enqueue` and `Fail` run more than one statement and are cut where
other callers can interleave.
-/

namespace Conduit.JobService

open Models JobStore

/-! ## The retry engine and the environment of a call -/

/-- `retry.Config` less the fields that only `Delay` reads. -/
structure RetryEngine where
  maxAttempts : ℤ

/-- `retry.DefaultMaxAttempts`. -/
def defaultMaxAttempts : ℤ := 5

/-- `retry.Engine.ShouldRetry` without an error. -/
def RetryEngine.shouldRetry (engine : RetryEngine) (attempt : ℤ) : Bool :=
  if 0 < engine.maxAttempts ∧ engine.maxAttempts ≤ attempt then false else true

structure Env where
  /-- The retry engine of the service that makes the call. -/
  engine : RetryEngine
  /-- `time.Now()` in the service, the worker or the handler. -/
  now : ℤ
  /-- `time.Now()` inside the store method. -/
  storeNow : ℤ
  /-- `NOW()` of the statement. -/
  dbNow : ℤ
  /-- The bytes a lease token is made of. -/
  random : Fin 16 → UInt8
  /-- The value of `newJobID`. -/
  jobID : String
  /-- The value of `retry.Engine.Delay`. -/
  delay : ℤ
  /-- Rows other transactions hold locked while the statement runs. -/
  locked : String → Bool

/-! ## Lease tokens -/

def hexDigit (value : ℕ) : Char :=
  if value < 10 then Char.ofNat (48 + value) else Char.ofNat (87 + value)

def hexByte (byte : UInt8) : List Char :=
  [hexDigit (byte.toNat / 16), hexDigit (byte.toNat % 16)]

/-- Sixteen random bytes in hexadecimal; `newWorkerLeaseToken` is the same. -/
def newLeaseToken (random : Fin 16 → UInt8) : String :=
  String.ofList ((List.ofFn random).flatMap hexByte)

theorem newLeaseToken_ne_empty (random : Fin 16 → UInt8) :
    newLeaseToken random ≠ "" := by
  intro hempty
  rw [newLeaseToken, String.ofList_eq_empty_iff] at hempty
  simp [hexByte, List.ofFn_succ] at hempty

theorem hexDigit_injOn {left right : ℕ} (hleft : left < 16) (hright : right < 16)
    (hdigit : hexDigit left = hexDigit right) : left = right := by
  have hall : ∀ left right : Fin 16, hexDigit left = hexDigit right → left = right := by
    decide
  exact congrArg Fin.val (hall ⟨left, hleft⟩ ⟨right, hright⟩ hdigit)

theorem hexByte_injective : Function.Injective hexByte := by
  intro left right hbytes
  simp only [hexByte, List.cons.injEq, and_true] at hbytes
  have hleft := left.toNat_lt
  have hright := right.toNat_lt
  have hhigh := hexDigit_injOn (by omega) (by omega) hbytes.1
  have hlow := hexDigit_injOn (by omega) (by omega) hbytes.2
  exact UInt8.toNat_inj.mp (by omega)

theorem flatMap_hexByte_injective :
    Function.Injective fun bytes : List UInt8 => bytes.flatMap hexByte := by
  intro left
  induction left with
  | nil =>
      intro right hbytes
      cases right with
      | nil => rfl
      | cons byte right => cases hbytes
  | cons byte left ih =>
      intro right hbytes
      cases right with
      | nil => cases hbytes
      | cons other right =>
          have hsplit : hexByte byte = hexByte other ∧
              left.flatMap hexByte = right.flatMap hexByte := by
            simpa [hexByte, and_assoc] using hbytes
          rw [hexByte_injective hsplit.1, ih hsplit.2]

/-- Different bytes make different tokens. -/
theorem newLeaseToken_injective : Function.Injective newLeaseToken := by
  intro left right htoken
  exact List.ofFn_injective (flatMap_hexByte_injective (String.ofList_injective htoken))

/-! ## Retry policy -/

/-- `JobService.shouldRetry`: the job's own budget before the engine's. -/
def shouldRetry (engine : RetryEngine) (job : Job) : Bool :=
  if 0 < job.task.maxRetries then job.attempt < job.task.maxRetries
  else engine.shouldRetry job.attempt

def clampLease (lease requested : ℤ) : ℤ :=
  if requested ≤ 0 ∨ lease < requested then lease else requested

/-! ## Enqueue -/

/-- What the jobs of the two callers of `Enqueue`, the API handler and
`Scheduler.fire`, have in common: they carry a tenant, a key, a task, a schedule
and metadata, and leave every other field at its zero value. -/
structure FromCaller (job : Job) : Prop where
  id : job.id = ""
  state : job.state = .unset
  attempt : job.attempt = 0
  startedAt : job.startedAt = none
  leaseExpiresAt : job.leaseExpiresAt = none
  leaseToken : job.leaseToken = ""
  completedAt : job.completedAt = none
  lastError : job.lastError = ""
  createdAt : job.createdAt = zeroTime
  updatedAt : job.updatedAt = zeroTime

def withTenant (job : Job) : Job :=
  if job.tenantID = "" then { job with tenantID := defaultTenant } else job

/-- The retry budget `Enqueue` stores. -/
def storedMaxRetries (engine : RetryEngine) (requested : ℤ) : ℤ :=
  if 0 < requested then requested
  else if 0 < engine.maxAttempts then engine.maxAttempts
  else defaultMaxAttempts

/-- The defaults `Enqueue` fills in before the insert. -/
def prepareJob (env : Env) (job : Job) : Job := { job with
  id := if job.id = "" then env.jobID else job.id
  state := if job.state = .unset then .pending else job.state
  task := { job.task with
    queue := if job.task.queue = "" then defaultQueue else job.task.queue
    maxRetries := storedMaxRetries env.engine job.task.maxRetries }
  scheduledAt := some (job.scheduledAt.getD env.now) }

def shouldPublishImmediately (job : Job) (now : ℤ) : Bool :=
  ∀ scheduledAt ∈ job.scheduledAt, scheduledAt ≤ now

@[simp]
theorem withTenant_leaseToken (job : Job) :
    (withTenant job).leaseToken = job.leaseToken := by
  rw [withTenant]
  split <;> rfl

@[simp]
theorem withTenant_state (job : Job) : (withTenant job).state = job.state := by
  rw [withTenant]
  split <;> rfl

theorem createRow_leaseToken {env : Env} {now : ℤ} {job : Job} (hjob : job.leaseToken = "") :
    (createRow now (prepareJob env job)).leaseToken = none :=
  (congrArg nullableString hjob).trans nullableString_empty

theorem FromCaller.withTenant {job : Job} (hjob : FromCaller job) :
    FromCaller (withTenant job) := by
  rw [JobService.withTenant]
  split
  · exact { hjob with }
  · exact hjob

theorem storedMaxRetries_pos (engine : RetryEngine) (requested : ℤ) :
    1 ≤ storedMaxRetries engine requested := by
  rw [storedMaxRetries, defaultMaxAttempts]
  split
  · omega
  · split <;> omega

theorem withTenant_ne_empty (job : Job) : (withTenant job).tenantID ≠ "" := by
  rw [withTenant]
  split
  · simp [defaultTenant]
  · assumption

/-! ## Fail -/

/-- The next run `Fail` asks for after reading `job`. -/
def failNextRun (env : Env) (job : Job) (permanent : Bool) : Option ℤ :=
  if permanent = false ∧ shouldRetry env.engine job = true
  then some (env.now + env.delay) else none

/-- The job `Fail` hands back once the write succeeded. -/
def failedJob (job : Job) (errMsg : String) (nextRun : Option ℤ) : Job := { job with
  lastError := errMsg
  startedAt := none
  leaseExpiresAt := none
  leaseToken := ""
  state := if nextRun.isSome then .pending else .dead
  scheduledAt := if nextRun.isSome then nextRun else job.scheduledAt }

/-- The job was read from the row, up to the two columns a heartbeat moves. -/
def ReadOf (job : Job) (row : Row) : Prop :=
  job = { scanJob row with
    leaseExpiresAt := job.leaseExpiresAt, updatedAt := job.updatedAt }

theorem ReadOf.attempt {job : Job} {row : Row} (hread : ReadOf job row) :
    job.attempt = row.attempt := by
  rw [hread]
  rfl

theorem ReadOf.maxRetries {job : Job} {row : Row} (hread : ReadOf job row) :
    job.task.maxRetries = row.taskMaxRetries := by
  rw [hread]
  rfl

theorem failNextRun_isSome {env : Env} {job : Job} {permanent : Bool}
    (hbudget : 0 < job.task.maxRetries)
    (hretry : (failNextRun env job permanent).isSome = true) :
    job.attempt < job.task.maxRetries := by
  rw [failNextRun, shouldRetry, if_pos hbudget] at hretry
  by_contra hspent
  simp [hspent] at hretry

end Conduit.JobService
