import Conduit.Api.Handlers
import Conduit.Core.View

/-!
# The rows a request works on

The API reaches the tables in three ways: with the tenant in the `WHERE` clause,
with a wildcard that is never passed for it, and with a lease token alone.  As
long as the token is not on a row of another tenant, every statement a request
runs selects rows of its own tenant, so the rows of all others stay as they are.
-/

namespace Conduit.Api

open Models Relational JobStore JobService JobCalls ScheduleStore
open Scheduler (Database)

/-- The job rows of a tenant. -/
abbrev Owns (tenant : String) (row : Row) : Prop :=
  row.tenantID = tenant

/-- The schedule rows of a tenant. -/
abbrev OwnsSchedule (tenant : String) (row : ScheduleRow) : Prop :=
  row.tenantID = tenant

/-- Whoever claimed with the token did so for the tenant. -/
def OwnLease (tenant : String) (table : JobTable) (leaseToken : String) : Prop :=
  ∀ row ∈ table.rows, row.state = .running → row.leaseToken = some leaseToken →
    Owns tenant row

/-- The lease token a request presents, if any, is on no row of another tenant.  The
handlers refuse an empty one. -/
def Request.PresentsOwn (tenant : String) (table : JobTable) (request : Request) : Prop :=
  ∀ leaseToken ∈ request.leaseToken, leaseToken ≠ "" → OwnLease tenant table leaseToken

theorem inTenant_iff {tenant : String} (htenant : tenant ≠ "") (row : Row) :
    InTenant tenant row ↔ Owns tenant row := by
  rw [InTenant, anyTenant]
  exact or_iff_right htenant

/-! ## Calls made for a tenant -/

/-- A job as a handler passes it to `Enqueue`. -/
structure EnqueuedFor (tenant : String) (job : Job) : Prop where
  tenantID : job.tenantID = tenant
  leaseToken : job.leaseToken = ""

/-- The calls a request of a tenant makes. -/
inductive Makes (tenant : String) : Request → Call → Prop
  | enqueue (body : Except String EnqueueRequest) (job : Job)
      (hjob : EnqueuedFor tenant job) (hid : job.id = "") :
      Makes tenant (.enqueueJob body) (.enqueue job)
  | enqueueInsert (body : Except String EnqueueRequest) (job : Job)
      (hjob : EnqueuedFor tenant job) (hid : job.id = "") :
      Makes tenant (.enqueueJob body) (.enqueueInsert job)
  | enqueueRelookup (body : Except String EnqueueRequest) (job : Job)
      (hjob : EnqueuedFor tenant job) :
      Makes tenant (.enqueueJob body) (.enqueueRelookup job)
  | cancel (id : String) : Makes tenant (.cancelJob id) (.cancelJob tenant id)
  | cancelRecheck (id : String) : Makes tenant (.cancelJob id) (.recheck tenant id)
  | requeue (id : String) : Makes tenant (.requeueJob id) (.requeueDeadJob tenant id)
  | requeueRecheck (id : String) : Makes tenant (.requeueJob id) (.recheck tenant id)
  | claim (body : Except String ClaimRequest) (leaseDuration : ℤ) (filter : ClaimFilter)
      (hfilter : filter.tenant = tenant) :
      Makes tenant (.claimJob body) (.claimNextJob leaseDuration filter)
  | heartbeat (id : String) (body : HeartbeatRequest) (leaseDuration : ℤ) :
      Makes tenant (.heartbeatJob id (.ok body))
        (.renewLease id body.leaseToken leaseDuration)
  | complete (id : String) (body : CompleteRequest) (metadata : Option StringMap) :
      Makes tenant (.completeJob id (.ok body))
        (.completeClaimedJob id body.leaseToken metadata)
  | fail (id : String) (body : FailRequest) (errMsg : String) (permanent : Bool) :
      Makes tenant (.failJob id (.ok body)) (.fail id body.leaseToken errMsg permanent)
  | failWrite (id : String) (body : FailRequest) (errMsg : String) (permanent : Bool)
      (job : Job) :
      Makes tenant (.failJob id (.ok body))
        (.failWrite id body.leaseToken errMsg permanent job)

section Calls

variable {tenant : String} {env : Env} {table : JobTable} {request : Request} {call : Call}

theorem withTenant_of_enqueuedFor {job : Job} (htenant : tenant ≠ "")
    (hjob : EnqueuedFor tenant job) : withTenant job = job := by
  rw [withTenant, if_neg]
  rw [hjob.tenantID]
  exact htenant

/-- The job a call inserts is the tenant's. -/
theorem Makes.enqueuedFor (htenant : tenant ≠ "") (hmakes : Makes tenant request call)
    {job : Job} (hinserts : call.Inserts job) : EnqueuedFor tenant job := by
  rcases hinserts with rfl | ⟨requested, rfl, rfl, -⟩
  · cases hmakes with
    | enqueueInsert body job hjob hid => exact hjob
  · cases hmakes with
    | enqueue body job hjob hid =>
        rw [withTenant_of_enqueuedFor htenant hjob]
        exact hjob

/-- What is left of a call is a call the same request makes. -/
theorem Makes.next (htenant : tenant ≠ "") (hmakes : Makes tenant request call) {next : Call}
    (hnext : (call.effect env table).next = some next) : Makes tenant request next := by
  have hinserted : ∀ job, call.Inserts job → EnqueuedFor tenant job :=
    fun job => hmakes.enqueuedFor htenant
  cases effect_leads hnext with
  | kafkaWrite | deleteExec => cases hmakes
  | failWrite id leaseToken errMsg permanent job hread =>
      cases hmakes with
      | fail id body => exact .failWrite id body errMsg permanent job
  | enqueueInsert job hkey =>
      cases hmakes with
      | enqueue body job hjob hid =>
          rw [withTenant_of_enqueuedFor htenant hjob]
          exact .enqueueInsert body job hjob hid
  | enqueueRelookup call job hcall hkey =>
      have hjob := hinserted job hcall
      have hprepared : EnqueuedFor tenant (prepareJob env job) :=
        ⟨hjob.tenantID, hjob.leaseToken⟩
      rcases hcall with rfl | ⟨requested, rfl, -, -⟩
      · cases hmakes with
        | enqueueInsert body => exact .enqueueRelookup body _ hprepared
      · cases hmakes with
        | enqueue body => exact .enqueueRelookup body _ hprepared
  | recheck call owner id hcall =>
      rcases hcall with rfl | rfl
      · cases hmakes with
        | cancel => exact .cancelRecheck id
      · cases hmakes with
        | requeue => exact .requeueRecheck id

/-- A statement run for a tenant selects its rows only. -/
theorem Makes.selects_owned (htenant : tenant ≠ "") (hmakes : Makes tenant request call)
    (hlease : request.PresentsOwn tenant table)
    {statement : Statement} (hstatement : call.statement env table = some statement)
    {row : Row} (hrow : row ∈ table.rows) (hselects : statement.Selects row) :
    Owns tenant row := by
  cases hmakes with
  | cancel id =>
      cases hstatement
      exact (inTenant_iff htenant row).1 hselects.2.1
  | requeue id =>
      cases hstatement
      exact (inTenant_iff htenant row).1 hselects.2.2
  | claim body leaseDuration filter hfilter =>
      cases hstatement
      have hclaimable := claimable_of_selects hrow hselects
      rw [← hfilter] at htenant ⊢
      exact (inTenant_iff htenant row).1 hclaimable.2.2.2.1
  | heartbeat id body | complete id body | failWrite id body =>
      obtain ⟨htoken, rfl⟩ := withToken_eq_some hstatement
      exact hlease body.leaseToken rfl htoken row hrow hselects.2.1 hselects.2.2
  | _ => cases hstatement

/-- No statement a request runs touches a job of another tenant. -/
theorem Makes.hidden_effect (htenant : tenant ≠ "") (hmakes : Makes tenant request call)
    (hlease : request.PresentsOwn tenant table) :
    (call.effect env table).table.hidden (Owns tenant) = table.hidden (Owns tenant) := by
  have hdoes := effect_does env table call
  generalize (call.effect env table).table = after at hdoes ⊢
  generalize (call.effect env table).events = events at hdoes
  cases hdoes with
  | nothing | found => rfl
  | updated statement hstatement =>
      apply Table.hidden_exec
      · intro row hrow hselects
        exact hmakes.selects_owned htenant hlease hstatement hrow hselects
      · intro row howns
        exact (statement.set_tenantID row).trans howns
  | inserted job after hinserts hcreate =>
      apply Table.hidden_insert (createJob_eq_ok hcreate)
      exact (hmakes.enqueuedFor htenant hinserts).tenantID
  | deleted ids hcall =>
      rw [hcall] at hmakes
      cases hmakes

end Calls

/-! ## Turns -/

/-- The call is at the read of `Fail`. -/
def readsToFail : Call → Bool
  | .fail .. => true
  | _ => false

theorem readsToFail_next {env : Env} {table : JobTable} {call next : Call}
    (hnext : (call.effect env table).next = some next) : readsToFail next = false := by
  cases effect_leads hnext <;> rfl

/-- What is left of a request is a call it makes, past the first read of a `Fail`,
or another attempt to claim. -/
def Progress.Of (tenant : String) (request : Request) : Progress → Prop
  | .call made => Makes tenant request made ∧ readsToFail made = false
  | .claim body _ => request = .claimJob (.ok body)

/-- What a `Fail` under way read still describes the row that answers to its
token. -/
def Progress.Read (table : JobTable) : Progress → Prop
  | .call (.failWrite id leaseToken _ _ job) =>
      ∀ row ∈ table.rows, row.id = id → row.leaseToken = some leaseToken → ReadOf job row
  | _ => True

/-- A `Fail` that has just read its job. -/
theorem read_next {env : Env} {table : JobTable} {call next : Call}
    (hnext : (call.effect env table).next = some next) :
    (Progress.call next).Read (call.effect env table).table := by
  cases effect_leads hnext with
  | failWrite id leaseToken errMsg permanent job hget =>
      obtain ⟨found, hfound, hid, -, rfl⟩ := getJob_eq_ok hget
      intro row hrow hrowID htoken
      rw [Call.effect, readEffect_table] at hrow
      rw [table.key_unique hfound hrow (hid.trans hrowID.symm)]
      rfl
  | _ => trivial

/-- A turn of a request of a tenant: it runs at most one statement of a call the
request makes, writes schedules of the tenant only, and leaves what the request
can go on with. -/
structure Turn.Scoped (context : Context) (env : Env) (database : Database)
    (request : Request) (turn : Turn) : Prop where
  ran : turn.effect = { table := database.jobs } ∨
    ∃ call, Makes context.tenant request call ∧ turn.effect = call.effect env database.jobs
  schedules : turn.schedules.hidden (OwnsSchedule context.tenant) =
    database.schedules.hidden (OwnsSchedule context.tenant)
  next : ∀ progress ∈ turn.next, progress.Of context.tenant request ∧
    progress.Read turn.effect.table

section Turns

variable {context : Context} {env : Env} {database : Database} {request : Request}

/-- The jobs of every other tenant are the same before and after a turn. -/
theorem Turn.Scoped.jobs {turn : Turn} (hscoped : turn.Scoped context env database request)
    (htenant : context.tenant ≠ "")
    (hlease : request.PresentsOwn context.tenant database.jobs) :
    turn.effect.table.hidden (Owns context.tenant) =
      database.jobs.hidden (Owns context.tenant) := by
  rcases hscoped.ran with hnone | ⟨call, hmakes, heffect⟩
  · rw [hnone]
  · rw [heffect]
    exact hmakes.hidden_effect htenant hlease

/-- A turn that ends its request. -/
theorem Turn.Scoped.of_none {turn : Turn} (hnext : turn.next = none)
    (hran : turn.effect = { table := database.jobs } ∨
      ∃ call, Makes context.tenant request call ∧
        turn.effect = call.effect env database.jobs)
    (hschedules : turn.schedules.hidden (OwnsSchedule context.tenant) =
      database.schedules.hidden (OwnsSchedule context.tenant)) :
    turn.Scoped context env database request := by
  refine ⟨hran, hschedules, ?_⟩
  intro progress hprogress
  rw [hnext] at hprogress
  cases hprogress

theorem scoped_answer (response : Response) :
    (answer database response).Scoped context env database request :=
  .of_none rfl (.inl rfl) rfl

theorem scoped_reject (err : ApiError) :
    (reject context database err).Scoped context env database request :=
  scoped_answer _

theorem scoped_runCall {call : Call} (htenant : context.tenant ≠ "")
    (hmakes : Makes context.tenant request call) :
    (runCall context env database request call).Scoped context env database request := by
  refine ⟨.inr ⟨call, hmakes, rfl⟩, rfl, ?_⟩
  intro progress hprogress
  obtain ⟨next, hnext, rfl⟩ := Option.map_eq_some_iff.1 hprogress
  exact ⟨⟨hmakes.next htenant hnext, readsToFail_next hnext⟩, read_next hnext⟩

theorem scoped_attemptClaim {body : ClaimRequest} (deadline : ℤ)
    (hrequest : request = .claimJob (.ok body)) :
    (attemptClaim context env database body deadline).Scoped context env database
      request := by
  have hmakes : Makes context.tenant request (body.call context) := by
    rw [hrequest]
    exact .claim (.ok body) _ _ rfl
  rw [attemptClaim]
  dsimp only
  split
  · exact .of_none rfl (.inr ⟨_, hmakes, rfl⟩) rfl
  · refine ⟨.inr ⟨_, hmakes, rfl⟩, rfl, ?_⟩
    intro progress hprogress
    cases hprogress
    exact ⟨hrequest, trivial⟩
  · exact .of_none rfl (.inr ⟨_, hmakes, rfl⟩) rfl

theorem scoped_cancelJob (id : String) :
    (cancelJob context database id).Scoped context env database (.cancelJob id) := by
  rw [cancelJob]
  split
  · refine ⟨.inl rfl, rfl, ?_⟩
    intro progress hprogress
    cases hprogress
    exact ⟨⟨Makes.cancel id, rfl⟩, trivial⟩
  · exact scoped_reject _
  · exact scoped_reject _

theorem scoped_insertSchedule {sched : Schedule} (htenant : context.tenant ≠ "")
    (howner : sched.tenantID = context.tenant) :
    (insertSchedule context env database sched).Scoped context env database request := by
  refine .of_none rfl (.inl rfl) ?_
  change (ScheduleStore.createSchedule database.schedules env.jobID env.storeNow
    sched).2.hidden _ = _
  rw [ScheduleStore.createSchedule]
  rcases hinsert : database.schedules.insert
      (scheduleRow (prepareSchedule env.jobID env.storeNow sched)) with err | after
  · rfl
  · apply Table.hidden_insert hinsert
    exact tenantID_scheduleRow htenant howner ..

theorem scoped_deleteSchedule (id : String) :
    (deleteSchedule context database id).Scoped context env database request :=
  .of_none rfl (.inl rfl) (Table.hidden_delete fun _ hselects => hselects.2)

theorem scoped_createSchedule (body : Except String CreateScheduleRequest)
    (htenant : context.tenant ≠ "") :
    (createSchedule context env database body).Scoped context env database request := by
  cases body with
  | error message => exact scoped_reject _
  | ok body =>
      rw [createSchedule]
      split
      · exact scoped_reject _
      · split
        · exact scoped_reject _
        · split
          · exact scoped_reject _
          · split
            · exact scoped_reject _
            · dsimp only
              split
              · exact scoped_reject _
              · exact scoped_insertSchedule htenant rfl

theorem scoped_withLease {Payload : Type} {token : Payload → String}
    {turn : Payload → Turn} {body : Except String Payload}
    (hturn : ∀ payload, body = .ok payload →
      (turn payload).Scoped context env database request) :
    (withLease context database token turn body).Scoped context env database request := by
  cases body with
  | error message => exact scoped_reject _
  | ok payload =>
      rw [withLease]
      split
      · exact scoped_reject _
      · exact hturn payload rfl

/-- The first turn of every request. -/
theorem scoped_start (htenant : context.tenant ≠ "") :
    (request.start context env database).Scoped context env database request := by
  cases request with
  | enqueueJob body =>
      cases body with
      | error message => exact scoped_reject _
      | ok body =>
          simp only [Request.start, enqueueJob]
          split
          · exact scoped_reject _
          · split
            · exact scoped_reject _
            · exact scoped_runCall htenant (.enqueue _ _ ⟨rfl, rfl⟩ rfl)
  | getJobStatus id => exact scoped_answer _
  | getJobByIdempotencyKey key =>
      simp only [Request.start, getJobByIdempotencyKey]
      split
      · exact scoped_reject _
      · exact scoped_answer _
  | listJobs query =>
      simp only [Request.start, listJobs]
      split
      · exact scoped_reject _
      · split
        · exact scoped_reject _
        · exact scoped_answer _
  | cancelJob id => exact scoped_cancelJob id
  | requeueJob id => exact scoped_runCall htenant (.requeue id)
  | claimJob body =>
      cases body with
      | error message => exact scoped_reject _
      | ok body =>
          simp only [Request.start, claimJob]
          split
          · exact scoped_reject _
          · exact scoped_attemptClaim _ rfl
  | heartbeatJob id body =>
      apply scoped_withLease
      rintro payload rfl
      exact scoped_runCall htenant (.heartbeat id payload _)
  | completeJob id body =>
      apply scoped_withLease
      rintro payload rfl
      exact scoped_runCall htenant (.complete id payload _)
  | failJob id body =>
      apply scoped_withLease
      rintro payload rfl
      exact scoped_runCall htenant (.fail id payload _ _)
  | createSchedule body => exact scoped_createSchedule body htenant
  | listSchedules => exact scoped_answer _
  | deleteSchedule id => exact scoped_deleteSchedule id

/-- Every later turn. -/
theorem scoped_resume {progress : Progress} (htenant : context.tenant ≠ "")
    (hprogress : progress.Of context.tenant request) :
    (request.resume context env database progress).Scoped context env database request := by
  cases progress with
  | call made => exact scoped_runCall htenant hprogress.1
  | claim body deadline =>
      simp only [Request.resume, claimAgain]
      split
      · exact scoped_answer _
      · exact scoped_attemptClaim deadline hprogress

end Turns

end Conduit.Api
