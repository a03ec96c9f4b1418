import Conduit.Api.Requests

/-!
# Handlers

A handler checks its request, runs the statements of one store or service call
and turns the answer into a response.  As everywhere, other callers may run
between two statements, so a handler is cut there too: a turn goes on to the end
of the next statement and says what is left.
-/

namespace Conduit.Api

open Models JobStore JobService JobCalls JobListing ScheduleStore Cron
open Scheduler (Database)

structure Context where
  server : Server
  tenant : String
  requestID : String

def respondError (context : Context) (err : ApiError) : Response where
  status := err.status
  body := .error err.code (err.message context.server.quote) context.requestID

/-- Where a handler stands between two statements. -/
inductive Progress
  | call (call : Call)
  /-- A claim that found nothing and may wait until `deadline`. -/
  | claim (body : ClaimRequest) (deadline : ℤ)

structure Turn where
  effect : Effect
  schedules : ScheduleTable
  next : Option Progress := none
  response : Option Response := none

def Turn.database (turn : Turn) : Database where
  jobs := turn.effect.table
  schedules := turn.schedules

/-- A turn that writes nothing. -/
def answer (database : Database) (response : Response) : Turn where
  effect := { table := database.jobs }
  schedules := database.schedules
  response := some response

/-! ## Durations -/

/-- An `int64` result that went out of range. -/
def wrap64 (value : ℤ) : ℤ :=
  (value + 2 ^ 63) % 2 ^ 64 - 2 ^ 63

/-- `time.Duration(seconds) * time.Second`. -/
def seconds (count : ℤ) : ℤ :=
  wrap64 (count * second)

/-- The lease a worker is granted for the one it asks for. -/
def Context.lease (context : Context) (leaseSeconds : ℤ) : ℤ :=
  clampLease context.server.lease (seconds leaseSeconds)

/-! ## From the answer of a call to the response -/

section Replies

variable (context : Context)

def enqueueReply : Reply → Response
  | .id id => ⟨201, .id id⟩
  | _ => respondError context (.internal .enqueue)

def cancelReply : Reply → Response
  | .done => ⟨200, .status "cancelled"⟩
  | .error .jobNotFound => respondError context .jobNotFound
  | .error .invalidTransition => respondError context .notCancellable
  | _ => respondError context (.internal .cancel)

def requeueReply : Reply → Response
  | .done => ⟨200, .stateAttempt .pending 0⟩
  | .error .jobNotFound => respondError context .jobNotFound
  | .error .invalidTransition => respondError context .notDead
  | _ => respondError context (.internal .requeue)

/-- The expiry it reports is computed from a second clock reading. -/
def heartbeatReply (now lease : ℤ) : Reply → Response
  | .done => ⟨200, .leaseExpiresAt (now + lease)⟩
  | .error .invalidTransition => respondError context .leaseLost
  | _ => respondError context (.internal .renew)

def completeReply : Reply → Response
  | .job _ => ⟨200, .state .completed⟩
  | .error .leaseLost => respondError context .leaseLost
  | _ => respondError context (.internal .complete)

def failReply : Reply → Response
  | .job job => ⟨200, .failed job.state job.attempt job.scheduledAt⟩
  | .error .leaseLost => respondError context .leaseLost
  | .error .jobNotFound => respondError context .jobNotFound
  | _ => respondError context (.internal .fail)

def Request.reply (env : Env) : Request → Reply → Response
  | .enqueueJob _ => enqueueReply context
  | .cancelJob _ => cancelReply context
  | .requeueJob _ => requeueReply context
  | .heartbeatJob _ (.ok body) => heartbeatReply context env.now (context.lease body.leaseSeconds)
  | .completeJob .. => completeReply context
  | .failJob .. => failReply context
  | _ => fun _ => respondError context (.internal .retrieve)

end Replies

section Handlers

variable (context : Context) (env : Env) (database : Database)

/-- The next statement of the call a request makes. -/
def runCall (request : Request) (call : Call) : Turn :=
  let effect := call.effect env database.jobs
  { effect
    schedules := database.schedules
    next := effect.next.map .call
    response := effect.reply.map (request.reply context env) }

def reject (err : ApiError) : Turn :=
  answer database (respondError context err)

/-! ## Jobs -/

/-- `etl.TaskName()`. -/
def etlTaskName : String := "sql.etl"

def taskAllowed (name : String) : Bool :=
  ¬ (name = etlTaskName ∧ context.tenant ≠ defaultTenant)

def EnqueueRequest.job (body : EnqueueRequest) (tenant : String) : Job where
  id := ""
  tenantID := tenant
  idempotencyKey := body.idempotencyKey
  task := body.task
  state := .unset
  attempt := 0
  scheduledAt := body.scheduledAt
  startedAt := none
  leaseExpiresAt := none
  leaseToken := ""
  completedAt := none
  lastError := ""
  metadata := body.metadata
  createdAt := zeroTime
  updatedAt := zeroTime

def enqueueJob : Except String EnqueueRequest → Turn
  | .error message => reject context database (.invalidRequest (.body message))
  | .ok body =>
      if body.task.name = "" then reject context database (.invalidRequest .taskName)
      else if taskAllowed context body.task.name = false then
        reject context database (.forbidden body.task.name)
      else runCall context env database (.enqueueJob (.ok body))
        (.enqueue (body.job context.tenant))

/-- The response of the two lookups. -/
def foundJob : Except StoreError Job → Response
  | .ok job => ⟨200, .job (serialised job)⟩
  | .error .jobNotFound => respondError context .jobNotFound
  | .error _ => respondError context (.internal .retrieve)

def getJobStatus (id : String) : Turn :=
  answer database (foundJob context (getJob database.jobs context.tenant id))

def getJobByIdempotencyKey (key : String) : Turn :=
  if key = "" then reject context database (.invalidRequest .idempotencyKey)
  else answer database
    (foundJob context (JobStore.getJobByIdempotencyKey database.jobs context.tenant key))

def parseState (text : String) : Option JobState :=
  if text = "" then some .unset
  else if text = "PENDING" then some .pending
  else if text = "RUNNING" then some .running
  else if text = "COMPLETED" then some .completed
  else if text = "FAILED" then some .failed
  else if text = "DEAD" then some .dead
  else none

def parseLimit (text : String) : Option ℤ :=
  if text = "" then some 0 else (atoi text.toList).filter fun limit => 0 ≤ limit

def withoutPayload (job : Job) : Job :=
  { job with task := { job.task with payload := none } }

def listedJobs (included : String) :
    Except ListError (List Job × String) → Response
  | .error _ => respondError context (.internal .list)
  | .ok (jobs, nextCursor) =>
      ⟨200, .page (jobs.map fun job =>
        serialised (if included = "payload" then job else withoutPayload job)) nextCursor⟩

def listJobs (query : ListQuery) : Turn :=
  match parseLimit query.limit with
  | none => reject context database (.invalidRequest .limit)
  | some limit =>
      match parseState query.state with
      | none => reject context database (.invalidRequest .state)
      | some state =>
          answer database (listedJobs context query.included
            (JobListing.listJobs context.server.collate database.jobs
              { tenant := context.tenant, state, limit, cursor := query.cursor }))

/-- The job is read first, for the name of its task. -/
def cancelJob (id : String) : Turn :=
  match getJob database.jobs context.tenant id with
  | .ok _ => {
      effect := { table := database.jobs }
      schedules := database.schedules
      next := some (.call (.cancelJob context.tenant id)) }
  | .error .jobNotFound => reject context database .jobNotFound
  | .error _ => reject context database (.internal .cancel)

def requeueJob (id : String) : Turn :=
  runCall context env database (.requeueJob id) (.requeueDeadJob context.tenant id)

/-! ## The pull protocol -/

def ClaimRequest.call (body : ClaimRequest) : Call :=
  .claimNextJob (context.lease body.leaseSeconds)
    { tenant := context.tenant, queues := body.queues, names := body.names }

/-- One attempt of a claim.  Whether there is time left for another is looked at
when the handler goes on. -/
def attemptClaim (body : ClaimRequest) (deadline : ℤ) : Turn :=
  let effect := (body.call context).effect env database.jobs
  let turn : Turn := { effect, schedules := database.schedules }
  match effect.reply with
  | some (.job job) => { turn with
      response := some ⟨200, .claim (serialised job) job.leaseToken
        (job.leaseExpiresAt.getD zeroTime)⟩ }
  | some (.error .jobNotFound) => { turn with next := some (.claim body deadline) }
  | _ => { turn with response := some (respondError context (.internal .claim)) }

def claimDeadline (body : ClaimRequest) : ℤ :=
  env.now + min (seconds body.waitSeconds) context.server.maxClaimWait

/-- The body is only decoded if `ContentLength` is positive; without that it is the zero
`ClaimRequest`. -/
def claimJob : Except String ClaimRequest → Turn
  | .error message => reject context database (.invalidRequest (.body message))
  | .ok body =>
      if body.leaseSeconds < 0 ∨ body.waitSeconds < 0 then
        reject context database (.invalidRequest .negativeSeconds)
      else attemptClaim context env database body (claimDeadline context env body)

def claimAgain (body : ClaimRequest) (deadline : ℤ) : Turn :=
  if deadline - env.now ≤ 0 then answer database ⟨204, .empty⟩
  else attemptClaim context env database body deadline

/-- The three handlers that take a lease token refuse an empty one. -/
def withLease {Payload : Type} (token : Payload → String) (turn : Payload → Turn) :
    Except String Payload → Turn
  | .error message => reject context database (.invalidRequest (.body message))
  | .ok body =>
      if token body = "" then reject context database (.invalidRequest .leaseToken)
      else turn body

def heartbeatJob (id : String) : Except String HeartbeatRequest → Turn :=
  withLease context database HeartbeatRequest.leaseToken fun body =>
    runCall context env database (.heartbeatJob id (.ok body))
      (.renewLease id body.leaseToken (context.lease body.leaseSeconds))

def completeJob (id : String) : Except String CompleteRequest → Turn :=
  withLease context database CompleteRequest.leaseToken fun body =>
    runCall context env database (.completeJob id (.ok body))
      (.completeClaimedJob id body.leaseToken body.metadata)

def FailRequest.message (body : FailRequest) : String :=
  if body.error = "" then "worker reported failure without a message" else body.error

def failJob (id : String) : Except String FailRequest → Turn :=
  withLease context database FailRequest.leaseToken fun body =>
    runCall context env database (.failJob id (.ok body))
      (.fail id body.leaseToken body.message (!body.retry))

/-! ## Schedules -/

def CreateScheduleRequest.schedule (body : CreateScheduleRequest) (tenant : String)
    (nextRunAt : ℤ) : Schedule where
  id := ""
  tenantID := tenant
  name := body.name
  cron := body.cron
  task := body.task
  enabled := true
  nextRunAt := nextRunAt
  lastRunAt := none
  lastJobID := ""
  createdAt := zeroTime
  updatedAt := zeroTime

def insertSchedule (sched : Schedule) : Turn :=
  let created := ScheduleStore.createSchedule database.schedules env.jobID env.storeNow sched
  { effect := { table := database.jobs }
    schedules := created.2
    response := some (match created.1 with
      | .ok stored => ⟨201, .schedule stored⟩
      | .error _ => respondError context .duplicateName) }

def createSchedule : Except String CreateScheduleRequest → Turn
  | .error message => reject context database (.invalidRequest (.body message))
  | .ok body =>
      if body.name = "" then reject context database (.invalidRequest .name)
      else if body.task.name = "" then reject context database (.invalidRequest .taskName)
      else if taskAllowed context body.task.name = false then
        reject context database (.forbidden body.task.name)
      else match parse body.cron with
        | .error err => reject context database (.invalidRequest (.cron err))
        | .ok cron =>
            let next := cron.next env.now
            if next = zeroTime then reject context database (.invalidRequest .noOccurrence)
            else insertSchedule context env database (body.schedule context.tenant next)

def listSchedules : Turn :=
  answer database ⟨200, .schedules (ScheduleStore.listSchedules context.server.collate
    database.schedules context.tenant)⟩

def deleteSchedule (id : String) : Turn :=
  let deleted := ScheduleStore.deleteSchedule database.schedules context.tenant id
  { effect := { table := database.jobs }
    schedules := deleted.2
    response := some (match deleted.1 with
      | .ok _ => ⟨204, .empty⟩
      | .error _ => respondError context .scheduleNotFound) }

/-! ## Dispatch -/

/-- The first turn of a request. -/
def Request.start : Request → Turn
  | .enqueueJob body => Api.enqueueJob context env database body
  | .getJobStatus id => Api.getJobStatus context database id
  | .getJobByIdempotencyKey key => Api.getJobByIdempotencyKey context database key
  | .listJobs query => Api.listJobs context database query
  | .cancelJob id => Api.cancelJob context database id
  | .requeueJob id => Api.requeueJob context env database id
  | .claimJob body => Api.claimJob context env database body
  | .heartbeatJob id body => Api.heartbeatJob context env database id body
  | .completeJob id body => Api.completeJob context env database id body
  | .failJob id body => Api.failJob context env database id body
  | .createSchedule body => Api.createSchedule context env database body
  | .listSchedules => Api.listSchedules context database
  | .deleteSchedule id => Api.deleteSchedule context database id

/-- A later turn of a request. -/
def Request.resume (request : Request) : Progress → Turn
  | .call call => runCall context env database request call
  | .claim body deadline => claimAgain context env database body deadline

end Handlers

end Conduit.Api
