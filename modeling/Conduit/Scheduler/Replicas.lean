import Conduit.Jobs.IdempotentEnqueue
import Conduit.Scheduler.Fire

/-!
# Scheduler replicas

Any number of scheduler replicas dispatch on one `schedules` and one `jobs` table.
A replica reads the rows that are due by its own clock and fires them one after
the other.  Between two of its statements any other replica and any other caller
of the job table may run, and a replica may stop at any point and start over.
The successful calls of `AdvanceSchedule` are recorded, newest first, for the
statements about whole runs.
-/

namespace Conduit.Replicas

open Models Relational JobStore JobService JobCalls JobMachine IdempotentEnqueue ScheduleStore
open Scheduler Transition

/-- How far a replica is with the first of its due rows. -/
inductive Stage
  | ready
  /-- `Enqueue` is under way, the next fire instant being computed. -/
  | enqueueing (next : ℤ) (call : Call)
  | advancing (next : ℤ) (jobID : String)

/-- The rows a replica has read and not finished with, and its clock reading. -/
structure Replica where
  now : ℤ
  due : List Schedule
  stage : Stage

structure Advance where
  id : String
  observed : ℤ
  next : ℤ
  deriving DecidableEq

structure System where
  world : World
  schedules : ScheduleTable
  replicas : List Replica
  advances : List Advance

inductive Label
  /-- A replica between two dispatches reads the rows that are due. -/
  | read (index : ℕ) (now limit : ℤ)
  /-- A replica goes on with the row it is at, by one statement at most. -/
  | work (index : ℕ) (env : Env)
  /-- A statement failed, and the replica leaves the row it is at. -/
  | giveUp (index : ℕ)
  | crash (index : ℕ)
  /-- Some other caller of the job table runs a statement or stops. -/
  | jobs (label : JobMachine.Label)

/-- The replica is through with its row. -/
def Replica.done (replica : Replica) : Replica :=
  { replica with due := replica.due.tail, stage := .ready }

namespace System

def put (system : System) (index : ℕ) (replica : Replica) : System :=
  { system with replicas := system.replicas.set index replica }

/-- `fire`, up to its next statement. -/
def work (system : System) (index : ℕ) (replica : Replica) (sched : Schedule)
    (env : Env) : System :=
  match replica.stage with
  | .ready =>
      match nextFire sched replica.now with
      | .error _ => system.put index replica.done
      | .ok next => system.put index
          { replica with stage := .enqueueing next (.enqueue (fireJob sched)) }
  | .enqueueing next call =>
      let effect := call.effect env system.world.jobs
      let system := { system with world := system.world.absorb effect }
      match effect.next, effect.reply with
      | some later, _ => system.put index { replica with stage := .enqueueing next later }
      | none, some (.id jobID) =>
          system.put index { replica with stage := .advancing next jobID }
      | none, _ => system.put index replica.done
  | .advancing next jobID =>
      let (advanced, schedules) := advanceSchedule system.schedules env.dbNow sched.id
        sched.nextRunAt next jobID
      { system.put index replica.done with
        schedules
        advances := if advanced then ⟨sched.id, sched.nextRunAt, next⟩ :: system.advances
          else system.advances }

def step (system : System) : Label → System
  | .read index now limit =>
      system.put index ⟨now, dueSchedules system.schedules now limit, .ready⟩
  | .work index env =>
      match system.replicas[index]? with
      | none => system
      | some replica =>
          match replica.due with
          | [] => system
          | sched :: _ => system.work index replica sched env
  | .giveUp index =>
      match system.replicas[index]? with
      | none => system
      | some replica => system.put index replica.done
  | .crash index => system.put index ⟨zeroTime, [], .ready⟩
  | .jobs label => { system with world := system.world.step label }

end System

/-! ## The other callers -/

/-- The row is the job of a fire. -/
def JobFor (tenant id : String) (fireAt : ℤ) (job : Row) : Prop :=
  HasKey (fireTenant tenant) (fireKey id fireAt) job

instance (tenant id : String) (fireAt : ℤ) (job : Row) :
    Decidable (JobFor tenant id fireAt job) :=
  inferInstanceAs (Decidable (_ ∧ _))

/-- The row is the job of a fire whose schedule row a replica still holds. -/
def Held (system : System) (job : Row) : Prop :=
  ∃ replica ∈ system.replicas, ∃ sched ∈ replica.due,
    JobFor sched.tenantID sched.id sched.nextRunAt job

/-- The row is the job of the fire a schedule is next due for. -/
def Awaited (system : System) (job : Row) : Prop :=
  ∃ row ∈ system.schedules.rows, JobFor row.tenantID row.id row.nextRunAt job

/-- Callers other than the replicas use no key of the scheduler's, and retention
spares some rows. -/
def OtherCallers (Spared : System → Row → Prop) (system : System) (_ : World) (_ : Env)
    (call : Call) : Prop :=
  (∀ job, enqueues call = some job →
    ¬ idempotencyPrefix.toList <+: job.idempotencyKey.toList) ∧
  ∀ ids, call = .deleteExec ids → ∀ job ∈ system.world.jobs.rows, Spared system job →
    job.id ∉ ids

/-- The machine starts from any tables and idle replicas; a `timestamptz` column
holds whole microseconds. -/
def machine (Spared : System → Row → Prop) : Machine System Label where
  Init system := (∀ row ∈ system.schedules.rows, timestamptz row.nextRunAt = row.nextRunAt) ∧
    (∀ replica ∈ system.replicas, replica.due = []) ∧
    system.world.calls = [] ∧ system.world.history = [] ∧ system.advances = []
  Allowed system
    | .read index _ _ => ∀ replica ∈ system.replicas[index]?, replica.due = []
    | .jobs label =>
        (JobMachine.machine AnyTable (OtherCallers Spared system)).Allowed system.world label
    | _ => True
  step := System.step

end Conduit.Replicas
