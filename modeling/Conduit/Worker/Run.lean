import Conduit.Breaker.Breaker
import Conduit.Worker.KafkaClaim

/-!
# One run of the worker

`jobWorker.Run` takes a job off the pool and sees it through: it waits for the
job's time, asks the circuit breaker, takes the execution lock, claims the job if
Kafka delivered it, runs the handler and records the outcome.  One context, the
pool's, goes to every call on the way.  The run is cut at each of them, and a store
call under a cancelled context fails without effect.

The execution lock itself, metrics and the timeout of a task, which only a handler
can see, are left out.
-/

namespace Conduit.JobWorker

open Models Transition JobStore JobService
open CircuitBreaker (Breaker)

/-- What a handler returns: nil, an error, or one that wraps `retry.ErrNoRetry`. -/
inductive HandlerResult
  | ok
  | retryable (message : String)
  | noRetry (message : String)
  deriving DecidableEq

/-- The error of a result, and whether it is permanent. -/
def HandlerResult.error? : HandlerResult → Option (String × Bool)
  | .ok => none
  | .retryable message => some (message, false)
  | .noRetry message => some (message, true)

structure Config where
  lease : ℤ
  openTimeout : ℤ
  /-- The task names with a handler. -/
  handlers : List String
  /-- The verb `%q`, which only an error text goes through. -/
  quote : String → String

def lockContentionBackoff : ℤ := 5 * second

def maxInWorkerSleep : ℤ := 60 * second

def execute (cfg : Config) (job : Job) (result : HandlerResult) : HandlerResult :=
  if job.task.name ∈ cfg.handlers then result
  else .noRetry ("worker: no handler registered for task " ++ cfg.quote job.task.name ++
    ": retry: permanent failure, no retry")

/-- Where a run is.  `claim` and `claimWrite` are the two statements of `UpdateJob`,
`failRead` and `failWrite` those of `JobService.Fail`. -/
inductive Stage
  | wait
  | sleep
  | allow
  | lock
  | release (reason : String) (retryAfter : ℤ)
  | claim
  | claimWrite (job : Job)
  | execute
  | record (result : HandlerResult)
  | complete
  | failRead (errMsg : String) (permanent : Bool)
  | failWrite (errMsg : String) (permanent : Bool) (job : Job)
  | returned
  deriving DecidableEq

/-- The stages in which the renewal goroutine is alive. -/
def Stage.renews : Stage → Bool
  | .execute | .record _ | .complete | .failRead .. | .failWrite .. => true
  | _ => false

/-- The handler has returned and its outcome is not written yet. -/
def Stage.records : Stage → Bool
  | .record _ | .complete | .failRead .. | .failWrite .. => true
  | _ => false

/-- A run under way.  The program keeps no record of `handled`, the handler's result
and whether the lease was held when it came, nor of `missed`, whether a statement
that was to write the outcome met a cancelled context. -/
structure Execution where
  cfg : Config
  table : JobTable
  breaker : Breaker
  cancelled : Bool
  job : Job
  stage : Stage
  handled : Option (HandlerResult × Bool)
  missed : Bool

/-- What a step of the run meets: the clocks and random bytes, whether the wait for
the job's time has elapsed, whether the lock is free, and what a handler returns. -/
structure Turn where
  env : Env
  elapsed : Bool
  lockFree : Bool
  result : HandlerResult

namespace Execution

/-- The run holds the lease of its job. -/
def Holds (execution : Execution) : Prop :=
  execution.job.leaseToken ≠ "" ∧ ∃ row ∈ execution.table.rows,
    Statement.Holds execution.job.id execution.job.leaseToken row

instance (execution : Execution) : Decidable execution.Holds :=
  inferInstanceAs (Decidable (_ ∧ _))

/-! ## Steps -/

def wait (execution : Execution) (now : ℤ) : Execution := { execution with
  stage :=
    match execution.job.scheduledAt with
    | none => .allow
    | some scheduledAt =>
        if 0 < scheduledAt - now then
          if maxInWorkerSleep < scheduledAt - now then .returned else .sleep
        else .allow }

def sleep (execution : Execution) (elapsed : Bool) : Execution := { execution with
  stage := if elapsed then .allow else if execution.cancelled then .returned else .sleep }

def allow (execution : Execution) (now : ℤ) : Execution :=
  let answer := execution.breaker.allow now
  { execution with
    breaker := answer.2
    stage :=
      if answer.1 then .lock else .release "circuit open" execution.cfg.openTimeout }

def lock (execution : Execution) (lockFree : Bool) : Execution := { execution with
  stage :=
    if lockFree then .claim
    else .release "could not acquire execution lock" lockContentionBackoff }

def release (execution : Execution) (env : Env) (reason : String) (retryAfter : ℤ) :
    Execution := { execution with
  stage := .returned
  table :=
    if execution.job.state ≠ .running ∨ execution.job.leaseToken = "" ∨ execution.cancelled
    then execution.table
    else (releaseClaim execution.table env.storeNow env.dbNow execution.job.id
      execution.job.leaseToken reason retryAfter).2 }

def claim (execution : Execution) (env : Env) : Execution :=
  let claimed :=
    claimMessage execution.cfg.lease env.now (newLeaseToken env.random) execution.job
  { execution with
    stage :=
      if execution.job.state = .running then .execute
      else if execution.cancelled then .returned
      else match updateJobRead execution.table claimed with
        | .ok _ => .claimWrite claimed
        | .error _ => .returned }

def claimWrite (execution : Execution) (env : Env) (claimed : Job) : Execution :=
  if execution.cancelled then { execution with stage := .returned }
  else
    let written := updateJobWrite execution.table env.storeNow claimed
    match written.1 with
    | .ok _ => { execution with stage := .execute, job := claimed, table := written.2 }
    | .error _ => { execution with stage := .returned }

def handle (execution : Execution) (result : HandlerResult) : Execution :=
  let result := execute execution.cfg execution.job result
  { execution with
    stage := .record result, handled := some (result, decide execution.Holds) }

def record (execution : Execution) (now : ℤ) (result : HandlerResult) : Execution :=
  match result.error? with
  | none => { execution with
      stage := .complete, breaker := execution.breaker.recordSuccess }
  | some (errMsg, permanent) => { execution with
      stage := .failRead errMsg permanent, breaker := execution.breaker.recordFailure now }

/-- A store call that was to write the outcome fails on a cancelled context. -/
def miss (execution : Execution) : Execution :=
  { execution with stage := .returned, missed := true }

def complete (execution : Execution) (env : Env) : Execution :=
  if execution.cancelled then execution.miss
  else { execution with
    stage := .returned
    table := (completeClaimedJob execution.table env.dbNow execution.job.id
      execution.job.leaseToken none).2 }

def failRead (execution : Execution) (errMsg : String) (permanent : Bool) : Execution :=
  if execution.cancelled then execution.miss
  else { execution with
    stage :=
      match getJob execution.table anyTenant execution.job.id with
      | .ok job => .failWrite errMsg permanent job
      | .error _ => .returned }

def failWrite (execution : Execution) (env : Env) (errMsg : String) (permanent : Bool)
    (job : Job) : Execution :=
  if execution.cancelled then execution.miss
  else { execution with
    stage := .returned
    table := (failClaimedJob execution.table env.dbNow execution.job.id
      execution.job.leaseToken errMsg (failNextRun env job permanent)).2 }

def advance (execution : Execution) (turn : Turn) : Execution :=
  match execution.stage with
  | .wait => execution.wait turn.env.now
  | .sleep => execution.sleep turn.elapsed
  | .allow => execution.allow turn.env.now
  | .lock => execution.lock turn.lockFree
  | .release reason retryAfter => execution.release turn.env reason retryAfter
  | .claim => execution.claim turn.env
  | .claimWrite claimed => execution.claimWrite turn.env claimed
  | .execute => execution.handle turn.result
  | .record result => execution.record turn.env.now result
  | .complete => execution.complete turn.env
  | .failRead errMsg permanent => execution.failRead errMsg permanent
  | .failWrite errMsg permanent job => execution.failWrite turn.env errMsg permanent job
  | .returned => execution

/-- A tick of the goroutine that `startLeaseRenewal` starts. -/
def renew (execution : Execution) (env : Env) : Execution := { execution with
  table :=
    if execution.cancelled then execution.table
    else (renewLease execution.table env.storeNow env.dbNow execution.job.id
      execution.job.leaseToken (effectiveLease execution.cfg.lease)).2 }

end Execution

inductive Label
  | cancel
  /-- Other callers change the table. -/
  | others (table : JobTable)
  /-- Other runs report to the breaker. -/
  | reports (breaker : Breaker)
  | renew (env : Env)
  | step (turn : Turn)

namespace Execution

def step (execution : Execution) : Label → Execution
  | .cancel => { execution with cancelled := true }
  | .others table => { execution with table }
  | .reports breaker => { execution with breaker }
  | .renew env => execution.renew env
  | .step turn => execution.advance turn

/-- Other callers may do anything to the table, but for the row of the job between
the handler's return and the run's own. -/
def Allowed (execution : Execution) : Label → Prop
  | .others table => execution.stage ≠ .returned ∧
      (execution.stage.records = true →
        ∀ row ∈ execution.table.rows, row.id = execution.job.id → row ∈ table.rows)
  | .renew _ => execution.stage.renews = true
  | _ => True

end Execution

/-- A run at its start, of any job over any table. -/
def Begins (execution : Execution) : Prop :=
  execution.stage = .wait ∧ execution.handled = none ∧ execution.missed = false

def machine : Machine Execution Label where
  Init := Begins
  Allowed := Execution.Allowed
  step := Execution.step

end Conduit.JobWorker
