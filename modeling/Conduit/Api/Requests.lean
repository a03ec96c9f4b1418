import Conduit.Scheduler.Fire
import Conduit.Store.Listing

/-!
# Requests and responses of the API

What the thirteen routes under `/api` take and answer.  A JSON body is the result
of binding it: the value, or the text of the decoder's error.  The rows of the
`api_keys` table decide for which tenant a request acts.
-/

namespace Conduit.Api

open Models ScheduleStore Cron

/-! ## Requests -/

structure EnqueueRequest where
  idempotencyKey : String
  task : Task
  scheduledAt : Option ℤ
  metadata : Option StringMap

/-- The query string of `GET /api/jobs`. -/
structure ListQuery where
  state : String
  limit : String
  cursor : String
  included : String

structure ClaimRequest where
  queues : List String
  names : List String
  leaseSeconds : ℤ
  waitSeconds : ℤ

structure HeartbeatRequest where
  leaseToken : String
  leaseSeconds : ℤ

structure CompleteRequest where
  leaseToken : String
  metadata : Option StringMap

structure FailRequest where
  leaseToken : String
  error : String
  retry : Bool

structure CreateScheduleRequest where
  name : String
  cron : String
  task : Task

inductive Request
  | enqueueJob (body : Except String EnqueueRequest)
  | getJobStatus (id : String)
  | getJobByIdempotencyKey (key : String)
  | listJobs (query : ListQuery)
  | cancelJob (id : String)
  | requeueJob (id : String)
  | claimJob (body : Except String ClaimRequest)
  | heartbeatJob (id : String) (body : Except String HeartbeatRequest)
  | completeJob (id : String) (body : Except String CompleteRequest)
  | failJob (id : String) (body : Except String FailRequest)
  | createSchedule (body : Except String CreateScheduleRequest)
  | listSchedules
  | deleteSchedule (id : String)

/-- The lease token a request presents. -/
def Request.leaseToken : Request → Option String
  | .heartbeatJob _ (.ok body) => some body.leaseToken
  | .completeJob _ (.ok body) => some body.leaseToken
  | .failJob _ (.ok body) => some body.leaseToken
  | _ => none

/-- The handlers whose next statement may mint a lease token. -/
def Request.claims : Request → Bool
  | .claimJob _ => true
  | _ => false

/-! ## Errors -/

/-- What a handler finds wrong with a request. -/
inductive Invalid
  | body (message : String)
  | name
  | taskName
  | idempotencyKey
  | limit
  | state
  | negativeSeconds
  | leaseToken
  | cron (err : ParseError)
  | noOccurrence

def Invalid.message (quote : List Char → String) : Invalid → String
  | .body message => message
  | .name => "name is required"
  | .taskName => "task.name is required"
  | .idempotencyKey => "idempotency key is required"
  | .limit => "limit must be a non-negative integer"
  | .state => "state must be one of PENDING, RUNNING, COMPLETED, FAILED, DEAD"
  | .negativeSeconds => "lease_seconds and wait_seconds must not be negative"
  | .leaseToken => "lease_token is required"
  | .cron err => "cron: " ++ err.text quote
  | .noOccurrence => "cron has no occurrence in the next four years"

/-- What a handler was about when the database failed it. -/
inductive Operation
  | enqueue
  | retrieve
  | list
  | cancel
  | requeue
  | claim
  | renew
  | complete
  | fail

def Operation.message : Operation → String
  | .enqueue => "failed to enqueue job"
  | .retrieve => "failed to retrieve job"
  | .list => "failed to list jobs"
  | .cancel => "failed to cancel job"
  | .requeue => "failed to requeue job"
  | .claim => "failed to claim a job"
  | .renew => "failed to renew lease"
  | .complete => "failed to complete job"
  | .fail => "failed to record job failure"

/-- The errors of `RespondError`. -/
inductive ApiError
  | invalidRequest (why : Invalid)
  | missingToken
  | invalidToken
  | forbidden (taskName : String)
  | jobNotFound
  | scheduleNotFound
  | notCancellable
  | notDead
  | leaseLost
  | duplicateName
  | internal (operation : Operation)

namespace ApiError

def status : ApiError → ℕ
  | .invalidRequest _ => 400
  | .missingToken | .invalidToken => 401
  | .forbidden _ => 403
  | .jobNotFound | .scheduleNotFound => 404
  | .notCancellable | .notDead | .leaseLost | .duplicateName => 409
  | .internal _ => 500

def code : ApiError → String
  | .invalidRequest _ => "invalid_request"
  | .missingToken | .invalidToken => "unauthorized"
  | .forbidden _ => "forbidden"
  | .jobNotFound | .scheduleNotFound => "not_found"
  | .notCancellable | .notDead => "invalid_state"
  | .leaseLost => "lease_lost"
  | .duplicateName => "duplicate_name"
  | .internal _ => "internal_error"

def message (quote : List Char → String) : ApiError → String
  | .invalidRequest why => why.message quote
  | .missingToken => "missing bearer token"
  | .invalidToken => "invalid bearer token"
  | .forbidden taskName => taskName ++ " is only available to the default tenant"
  | .jobNotFound => "job not found"
  | .scheduleNotFound => "schedule not found"
  | .notCancellable => "job cannot be cancelled in its current state"
  | .notDead => "only a DEAD job can be requeued"
  | .leaseLost =>
      "the lease on this job is no longer held; stop working on it and claim another"
  | .duplicateName => "a schedule with that name already exists"
  | .internal operation => operation.message

end ApiError

/-! ## Responses -/

/-- A response body, by the fields it has. -/
inductive Body
  | empty
  | error (code message requestID : String)
  | id (id : String)
  | job (job : Job)
  | page (jobs : List Job) (nextCursor : String)
  | status (status : String)
  | stateAttempt (state : JobState) (attempt : ℤ)
  | claim (job : Job) (leaseToken : String) (leaseExpiresAt : ℤ)
  | leaseExpiresAt (instant : ℤ)
  | state (state : JobState)
  | failed (state : JobState) (attempt : ℤ) (scheduledAt : Option ℤ)
  | schedule (sched : Schedule)
  | schedules (scheds : List Schedule)
  deriving DecidableEq

structure Response where
  status : ℕ
  body : Body
  deriving DecidableEq

/-- A job as it is serialised: `LeaseToken` has no JSON name. -/
def serialised (job : Job) : Job :=
  { job with leaseToken := "" }

/-! ## Tenants -/

/-- What the handlers are set up with. -/
structure Server where
  /-- The lease of `JobService`, after its default. -/
  lease : ℤ
  maxClaimWait : ℤ
  apiKeys : List String
  hashKey : String → List UInt8
  /-- The order of the database on text. -/
  collate : String → String → Bool
  /-- The `%q` verb of `fmt`. -/
  quote : List Char → String

/-- The columns of `api_keys` that authentication reads. -/
structure KeyRow where
  tenantID : String
  keyHash : List UInt8
  revokedAt : Option ℤ

def tenantForKey (hashKey : String → List UInt8) (keys : List KeyRow) (key : String) :
    Option String :=
  (keys.find? fun row => row.keyHash = hashKey key ∧ row.revokedAt = none).map
    KeyRow.tenantID

def hasActiveKeys (keys : List KeyRow) : Bool :=
  keys.any fun row => row.revokedAt = none

def bearerToken (header : String) : String :=
  if (header.toList.take 7).map Char.toLower = "bearer ".toList
  then String.ofList (trimSpace (header.toList.drop 7)) else ""

/-- `APIKeyAuth`; `lookup` are the issued keys, if there is a key store. -/
def apiKeyAuth (server : Server) (lookup : Option (List KeyRow)) (header : String) :
    Except ApiError String :=
  let presented := bearerToken header
  let issuedTo := if presented = "" then none
    else lookup.bind fun keys => tenantForKey server.hashKey keys presented
  if presented ≠ "" ∧ presented ∈ server.apiKeys then .ok defaultTenant
  else match issuedTo with
    | some tenant => .ok tenant
    | none =>
        if server.apiKeys = [] ∧ lookup.all (fun keys => !hasActiveKeys keys) = true
        then .ok defaultTenant
        else .error (if presented = "" then .missingToken else .invalidToken)

def tenantOf (tenant : String) : String :=
  if tenant ≠ "" then tenant else defaultTenant

/-- The tenant a request acts for, once it is authenticated. -/
def authenticate (server : Server) (lookup : Option (List KeyRow)) (header : String) :
    Except ApiError String :=
  (apiKeyAuth server lookup header).map tenantOf

/-- No request acts for the wildcard tenant. -/
theorem authenticate_ne_empty {server : Server} {lookup : Option (List KeyRow)}
    {header tenant : String} (hauth : authenticate server lookup header = .ok tenant) :
    tenant ≠ "" := by
  rw [authenticate] at hauth
  rcases hkey : apiKeyAuth server lookup header with err | found
  · rw [hkey] at hauth
    cases hauth
  · rw [hkey] at hauth
    have htenant : tenantOf found = tenant := Except.ok.inj hauth
    rw [← htenant, tenantOf]
    split
    · assumption
    · simp [defaultTenant]

end Conduit.Api
