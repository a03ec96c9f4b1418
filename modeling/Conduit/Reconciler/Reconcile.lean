import Conduit.Jobs.Machine
import Conduit.Worker.Pool

/-!
# A pass of the reconciler

`Reconciler.reconcile` recovers expired claims, claims due jobs one at a time and
hands each to the worker pool, and prunes finished jobs.  It is cut where its
context can be cancelled or another process can reach the table: at every check of
the context, every statement and the `select` of `SubmitBlocking`.  A store call
under a cancelled context fails without effect.

`sampleBacklog`, which only reads the table to set a gauge, is left out.
-/

namespace Conduit.Reconciler

open Models Transition JobStore JobService WorkerPool

structure RetentionConfig where
  completed : ℤ
  dead : ℤ
  interval : ℤ
  batchSize : ℤ

structure Config where
  interval : ℤ
  batchSize : ℤ
  runningLease : ℤ
  queues : List String
  retention : RetentionConfig

/-- The defaults of `New`, but for the intervals between passes. -/
def new (cfg : Config) : Config where
  interval := if cfg.interval ≤ 0 then minute else cfg.interval
  batchSize := if cfg.batchSize ≤ 0 then 100 else cfg.batchSize
  runningLease := if cfg.runningLease ≤ 0 then 5 * minute else cfg.runningLease
  queues := cfg.queues
  retention := { cfg.retention with
    interval := if cfg.retention.interval ≤ 0 then hour else cfg.retention.interval
    batchSize := if cfg.retention.batchSize ≤ 0 then 1000 else cfg.retention.batchSize }

def maxSweepBatches : ℕ := 20

/-- What is left of a retention sweep: the states still to prune with the age of
each, and the batches the first of them has had. -/
structure Sweep where
  now : ℤ
  targets : List (JobState × ℤ)
  batches : ℕ
  deriving DecidableEq

inductive Stage
  | reap
  /-- The head of the claim loop. -/
  | loop
  | claim
  /-- `SubmitBlocking` is about to check the context. -/
  | offer (job : Job)
  /-- `SubmitBlocking` is at its `select`, unless the check found the context done. -/
  | submit (job : Job) (entryDone : Bool)
  | release (job : Job)
  | housekeep
  | sweep (left : Sweep)
  | deleteSelect (left : Sweep)
  | deleteExec (left : Sweep) (ids : List String)
  | returned
  deriving DecidableEq

/-- A claim made by the pass, with the table it was made on. -/
structure Claim where
  before : JobTable
  job : Job

/-- A pass under way.  `claims`, `accepted` and `refused` are records the program
does not keep: the claims of the pass and what `SubmitBlocking` answered. -/
structure Pass where
  cfg : Config
  table : JobTable
  pool : Pool Job
  cancelled : Bool
  stage : Stage
  hadWork : Bool
  claimed : ℕ
  lastSweep : Option ℤ
  claims : List Claim
  accepted : List Job
  refused : List Job

inductive Label
  | cancel
  /-- Other processes change the table. -/
  | others (table : JobTable)
  /-- Something else happens to the pool. -/
  | pool (label : WorkerPool.Label Job)
  | step (env : Env) (prefersSend : Bool)

namespace Stage

/-- The claimed job whose submission has not been answered. -/
def inHand : Stage → List Job
  | .offer job | .submit job _ => [job]
  | _ => []

end Stage

namespace Pass

/-! ## Steps -/

def reap (pass : Pass) (env : Env) : Pass :=
  if pass.cancelled then { pass with stage := .loop, hadWork := true }
  else
    let requeued := requeueExpiredRunning pass.table env.dbNow env.locked pass.cfg.batchSize
    { pass with stage := .loop, table := requeued.2, hadWork := 0 < requeued.1 }

/-- The loop is over without an error. -/
def endLoop (pass : Pass) : Pass :=
  { pass with stage := .housekeep, hadWork := pass.hadWork || 0 < pass.claimed }

def loop (pass : Pass) : Pass :=
  if (pass.claimed : ℤ) < pass.cfg.batchSize then
    { pass with stage := if pass.cancelled then .returned else .claim }
  else pass.endLoop

def claim (pass : Pass) (env : Env) : Pass :=
  if pass.cancelled then { pass with stage := .returned, hadWork := true }
  else
    let claimed := claimNextJob pass.table env.storeNow env.dbNow (newLeaseToken env.random)
      env.locked pass.cfg.runningLease ⟨anyTenant, pass.cfg.queues, []⟩
    match claimed.1 with
    | .ok job => { pass with
        stage := .offer job, table := claimed.2, claims := ⟨pass.table, job⟩ :: pass.claims }
    | .error .jobNotFound => pass.endLoop
    | .error _ => { pass with stage := .returned, hadWork := true }

def submit (pass : Pass) (job : Job) (entryDone prefersSend : Bool) : Pass :=
  match pass.pool.submitBlocking ⟨entryDone, pass.cancelled, prefersSend⟩ job with
  | none => pass
  | some (true, pool) => { pass with
      pool, stage := .loop, claimed := pass.claimed + 1, accepted := job :: pass.accepted }
  | some (false, pool) =>
      { pass with pool, stage := .release job, refused := job :: pass.refused }

def release (pass : Pass) (env : Env) (job : Job) : Pass := { pass with
  stage := .returned
  hadWork := true
  table :=
    if pass.cancelled then pass.table
    else (releaseClaim pass.table env.storeNow env.dbNow job.id job.leaseToken
      "worker pool rejected claimed job" pass.cfg.interval).2 }

/-- `sweepRetention` up to its loops.  The zero time in `lastSweep` means that there was no
sweep. -/
def housekeep (pass : Pass) (env : Env) : Pass :=
  let retention := pass.cfg.retention
  if retention.completed ≤ 0 ∧ retention.dead ≤ 0 then { pass with stage := .returned }
  else if ∃ last ∈ pass.lastSweep, env.now - last < retention.interval then
    { pass with stage := .returned }
  else { pass with
    lastSweep := if env.now = zeroTime then none else some env.now
    stage := .sweep
      ⟨env.now, [(.completed, retention.completed), (.dead, retention.dead)], 0⟩ }

/-- The head of the batch loop. -/
def sweep (pass : Pass) (left : Sweep) : Pass := { pass with
  stage :=
    match left.targets with
    | [] => .returned
    | (_, age) :: targets =>
        if age ≤ 0 ∨ maxSweepBatches ≤ left.batches then
          .sweep { left with targets, batches := 0 }
        else if pass.cancelled then .returned
        else .deleteSelect left }

def deleteSelect (pass : Pass) (left : Sweep) : Pass := { pass with
  stage :=
    match left.targets with
    | [] => .returned
    | (state, age) :: targets =>
        if pass.cancelled then .sweep { left with targets, batches := 0 }
        else match deleteFinishedSelect pass.table state (left.now - age)
            pass.cfg.retention.batchSize with
          | .ok ids => .deleteExec left ids
          | .error _ => .sweep { left with targets, batches := 0 } }

def deleteExec (pass : Pass) (left : Sweep) (ids : List String) : Pass :=
  let deleted := deleteFinishedExec pass.table ids
  { pass with
    table := deleted.2
    stage :=
      if (deleted.1 : ℤ) < pass.cfg.retention.batchSize then
        .sweep { left with targets := left.targets.tail, batches := 0 }
      else .sweep { left with batches := left.batches + 1 } }

def advance (pass : Pass) (env : Env) (prefersSend : Bool) : Pass :=
  match pass.stage with
  | .reap => pass.reap env
  | .loop => pass.loop
  | .claim => pass.claim env
  | .offer job => { pass with stage := .submit job pass.cancelled }
  | .submit job entryDone => pass.submit job entryDone prefersSend
  | .release job => pass.release env job
  | .housekeep => pass.housekeep env
  | .sweep left => pass.sweep left
  | .deleteSelect left => pass.deleteSelect left
  | .deleteExec left ids => pass.deleteExec left ids
  | .returned => pass

def step (pass : Pass) : Label → Pass
  | .cancel => { pass with cancelled := true }
  | .others table => { pass with table }
  | .pool label => { pass with pool := pass.pool.step label }
  | .step env prefersSend => pass.advance env prefersSend

/-- The jobs the pass has claimed and the pool has not accepted. -/
def unaccepted (pass : Pass) : List Job :=
  pass.stage.inHand ++ pass.refused

/-- Until the pass returns, other processes may do anything to the table but touch
a row that was claimed and not accepted, and the pool is not stopped. -/
def Allowed (pass : Pass) : Label → Prop
  | .cancel => True
  | .others table => pass.stage ≠ .returned ∧
      ∀ row ∈ pass.table.rows, row.id ∈ pass.unaccepted.map Job.id → row ∈ table.rows
  | .pool label => pass.pool.Allowed label ∧ label ≠ .stop
  | .step .. => True

end Pass

/-- A pass at its start, over any table and any pool that was not stopped. -/
def Begins (pass : Pass) : Prop :=
  (∃ cfg, pass.cfg = new cfg) ∧ (WorkerPool.machine Job).Reachable pass.pool ∧
    pass.pool.closed = false ∧ pass.stage = .reap ∧ pass.hadWork = false ∧
    pass.claimed = 0 ∧ pass.claims = [] ∧ pass.accepted = [] ∧ pass.refused = []

def machine : Machine Pass Label where
  Init := Begins
  Allowed := Pass.Allowed
  step := Pass.step

end Conduit.Reconciler
