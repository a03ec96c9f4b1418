import Conduit.Api.TenantScope

/-!
# Where the contents of a response come from

A response is made of fixed texts, of the request itself, of the clock and of
rows.  The rows are those of the tenant the request acts for, in the table the
turn read or left.
-/

namespace Conduit.Api

open Models Relational JobStore JobService JobCalls JobListing IdempotentEnqueue ScheduleStore Cron
open Scheduler (Database)

/-! ## What a response may hold -/

/-- The decoder's error for the body of a request. -/
def Request.bindError : Request → Option String
  | .enqueueJob (.error message) | .claimJob (.error message)
  | .heartbeatJob _ (.error message) | .completeJob _ (.error message)
  | .failJob _ (.error message) | .createSchedule (.error message) => some message
  | _ => none

def Request.taskName : Request → Option String
  | .enqueueJob (.ok body) => some body.task.name
  | .createSchedule (.ok body) => some body.task.name
  | _ => none

/-- The texts an error quotes are the request's own. -/
def ApiError.Quotes (request : Request) : ApiError → Prop
  | .invalidRequest (.body message) => request.bindError = some message
  | .invalidRequest (.cron err) =>
      ∃ body, request = .createSchedule (.ok body) ∧ parse body.cron = .error err
  | .forbidden taskName => request.taskName = some taskName
  | _ => True

/-- The fields of a failed job a worker is told. -/
def failedBody (job : Job) : Body :=
  .failed job.state job.attempt job.scheduledAt

/-- A response that holds nothing of a row another tenant owns. -/
inductive FromTenant (context : Context) (env : Env) (request : Request)
    (before after : Database) : Response → Prop
  | error (err : ApiError) (hquotes : err.Quotes request) :
      FromTenant context env request before after (respondError context err)
  | fixed (status : ℕ) (body : Body)
      (hbody : body ∈ [.empty, .status "cancelled", .stateAttempt .pending 0,
        .state .completed]) :
      FromTenant context env request before after ⟨status, body⟩
  | renewed (leaseSeconds : ℤ) :
      FromTenant context env request before after
        ⟨200, .leaseExpiresAt (env.now + context.lease leaseSeconds)⟩
  | id (row : Row) (hrow : row ∈ after.jobs.rows) (howns : Owns context.tenant row) :
      FromTenant context env request before after ⟨201, .id row.id⟩
  | job (row : Row) (hrow : row ∈ before.jobs.rows) (howns : Owns context.tenant row) :
      FromTenant context env request before after ⟨200, .job (serialised (scanJob row))⟩
  | page (rows : List Row)
      (hrows : ∀ row ∈ rows, row ∈ before.jobs.rows ∧ Owns context.tenant row)
      (shown : Job → Job) (hshown : shown = id ∨ shown = withoutPayload) (nextCursor : String)
      (hcursor : nextCursor = "" ∨
        ∃ row ∈ rows, nextCursor = encodeCursor row.createdAt row.id) :
      FromTenant context env request before after
        ⟨200, .page (rows.map fun row => serialised (shown (scanJob row))) nextCursor⟩
  | claim (body : ClaimRequest) (hrequest : request = .claimJob (.ok body)) (row : Row)
      (hrow : row ∈ after.jobs.rows) (howns : Owns context.tenant row)
      (hminted : row.leaseToken = some (newLeaseToken env.random)) :
      FromTenant context env request before after
        ⟨200, .claim (serialised (scanJob row)) (newLeaseToken env.random)
          (row.leaseExpiresAt.getD zeroTime)⟩
  | failed (row : Row) (hrow : row ∈ before.jobs.rows) (howns : Owns context.tenant row)
      (errMsg : String) (permanent : Bool) :
      FromTenant context env request before after
        ⟨200, failedBody
          (failedJob (scanJob row) errMsg (failNextRun env (scanJob row) permanent))⟩
  | schedule (sched : Schedule) (hrow : scheduleRow sched ∈ after.schedules.rows)
      (howns : OwnsSchedule context.tenant (scheduleRow sched)) :
      FromTenant context env request before after ⟨201, .schedule sched⟩
  | schedules (rows : List ScheduleRow)
      (hrows : ∀ row ∈ rows, row ∈ before.schedules.rows ∧
        OwnsSchedule context.tenant row) :
      FromTenant context env request before after ⟨200, .schedules (rows.map scanSchedule)⟩

section Replies

variable {context : Context} {env : Env} {request : Request} {before after : Database}

theorem fromTenant_cancelReply (reply : Reply) :
    FromTenant context env request before after (cancelReply context reply) := by
  unfold cancelReply
  split
  · exact .fixed _ _ (by simp)
  · exact .error _ trivial
  · exact .error _ trivial
  · exact .error _ trivial

theorem fromTenant_requeueReply (reply : Reply) :
    FromTenant context env request before after (requeueReply context reply) := by
  unfold requeueReply
  split
  · exact .fixed _ _ (by simp)
  · exact .error _ trivial
  · exact .error _ trivial
  · exact .error _ trivial

theorem fromTenant_heartbeatReply (leaseSeconds : ℤ) (reply : Reply) :
    FromTenant context env request before after
      (heartbeatReply context env.now (context.lease leaseSeconds) reply) := by
  unfold heartbeatReply
  split
  · exact .renewed leaseSeconds
  · exact .error _ trivial
  · exact .error _ trivial

theorem fromTenant_completeReply (reply : Reply) :
    FromTenant context env request before after (completeReply context reply) := by
  unfold completeReply
  split
  · exact .fixed _ _ (by simp)
  · exact .error _ trivial
  · exact .error _ trivial

end Replies

/-! ## The rows behind an answer -/

section Rows

variable {tenant : String} {env : Env} {table : JobTable} {request : Request} {call : Call}

/-- The id `Enqueue` answers is that of a row of the tenant. -/
theorem Makes.exists_row_of_id (htenant : tenant ≠ "") (hmakes : Makes tenant request call)
    {job : Job} (hjob : enqueues call = some job) {id : String}
    (hreply : (call.effect env table).reply = some (.id id)) :
    ∃ row ∈ (call.effect env table).table.rows, row.id = id ∧ Owns tenant row := by
  have howner : job.tenantID = tenant := by
    cases hmakes with
    | enqueue body requested hfor =>
        cases hjob
        rw [withTenant_of_enqueuedFor htenant hfor]
        exact hfor.tenantID
    | enqueueInsert body requested hfor | enqueueRelookup body requested hfor =>
        cases hjob
        exact hfor.tenantID
    | _ => cases hjob
  obtain ⟨inserted, published, hevent⟩ := returned_of_reply hjob hreply
  have hdoes := effect_does env table call
  generalize (call.effect env table).table = after at hdoes ⊢
  generalize (call.effect env table).events = events at hdoes hevent
  cases hdoes with
  | nothing => cases hevent
  | found looked existing hlooksUp hfound =>
      rw [enqueues_of_looksUp hlooksUp] at hjob
      cases hjob
      cases List.mem_singleton.1 hevent
      obtain ⟨row, hrow, -, hin, rfl⟩ := getJobByIdempotencyKey_eq_ok hfound
      rw [howner, inTenant_iff htenant] at hin
      exact ⟨row, hrow, rfl, hin⟩
  | updated statement hstatement => exact absurd hevent enqueued_notMem_flatMap
  | inserted created after hinserts hcreate =>
      rw [enqueues_of_inserts hinserts] at hjob
      cases hjob
      have hid : id = (prepareJob env job).id := by
        simp only [List.mem_cons, Event.enqueued.injEq, reduceCtorEq, List.not_mem_nil,
          or_false] at hevent
        exact hevent.2.2.1
      refine ⟨_, (Table.mem_insert (createJob_eq_ok hcreate)).2 (.inr rfl), hid.symm, ?_⟩
      exact howner
  | deleted ids hcall => cases hevent

theorem ofJob_eq_job {found : Except StoreError Job} {job : Job}
    (hreply : Reply.ofJob found = .job job) : found = .ok job := by
  cases found with
  | error err => cases hreply
  | ok existing =>
      cases hreply
      rfl

/-- A `Fail` that succeeds held the lease when it wrote. -/
theorem exists_row_of_failWrite {id leaseToken errMsg : String} {permanent : Bool}
    {job answered : Job}
    (hreply : ((Call.failWrite id leaseToken errMsg permanent job).effect env table).reply =
      some (.job answered)) :
    answered = failedJob job errMsg (failNextRun env job permanent) ∧ leaseToken ≠ "" ∧
      ∃ row ∈ table.rows, Statement.Holds id leaseToken row := by
  have hanswer : (Call.failWrite id leaseToken errMsg permanent job).answer env table =
      .job answered := by
    simp only [Call.effect, Call.updateEffect] at hreply
    split at hreply
    · exact Option.some.inj hreply
    · exact Option.some.inj hreply
  simp only [Call.answer] at hanswer
  split at hanswer
  · rename_i hok
    refine ⟨(Reply.job.inj hanswer).symm, ?_⟩
    rw [failClaimedJob] at hok
    split at hok
    · cases hok
    · rename_i statement hstatement
      obtain ⟨htoken, rfl⟩ := withToken_eq_some hstatement
      rw [execOr] at hok
      dsimp only at hok
      split at hok
      · cases hok
      · rename_i haffected
        obtain ⟨row, hrow⟩ := List.exists_mem_of_ne_nil _ haffected
        exact ⟨htoken, row, Table.mem_affected.1 hrow⟩
  · cases hanswer

/-- What a worker is told of a failed job does not depend on the two columns a
heartbeat may have moved since the job was read. -/
theorem failedBody_of_readOf {job : Job} {row : Row} (hread : ReadOf job row)
    (errMsg : String) (permanent : Bool) :
    failedBody (failedJob job errMsg (failNextRun env job permanent)) =
      failedBody (failedJob (scanJob row) errMsg
        (failNextRun env (scanJob row) permanent)) := by
  have hretry : shouldRetry env.engine job = shouldRetry env.engine (scanJob row) := by
    rw [shouldRetry, shouldRetry, hread.attempt, hread.maxRetries]
    rfl
  have hnextRun : failNextRun env job permanent = failNextRun env (scanJob row) permanent := by
    rw [failNextRun, failNextRun, hretry]
  have hscheduled : job.scheduledAt = row.scheduledAt := by
    rw [hread]
    rfl
  simp only [failedBody, failedJob, hnextRun, hread.attempt, hscheduled]
  rfl

end Rows

/-! ## Turns -/

section Turns

variable {context : Context} {env : Env} {database : Database} {request : Request}

/-- The response of a turn, if it has one, holds rows of the tenant only. -/
def Turn.Confined (context : Context) (env : Env) (request : Request) (database : Database)
    (turn : Turn) : Prop :=
  ∀ response ∈ turn.response,
    FromTenant context env request database turn.database response

theorem confined_answer {response : Response}
    (hresponse : FromTenant context env request database database response) :
    (answer database response).Confined context env request database := by
  intro given hgiven
  cases hgiven
  exact hresponse

theorem confined_reject {err : ApiError} (hquotes : err.Quotes request) :
    (reject context database err).Confined context env request database :=
  confined_answer (.error err hquotes)

theorem confined_runCall {call : Call} (htenant : context.tenant ≠ "")
    (hlease : request.PresentsOwn context.tenant database.jobs)
    (hmakes : Makes context.tenant request call)
    (hread : (Progress.call call).Read database.jobs) :
    (runCall context env database request call).Confined context env request database := by
  intro response hresponse
  obtain ⟨reply, hreply, rfl⟩ := Option.map_eq_some_iff.1 hresponse
  have hid : ∀ {job : Job} {id : String}, enqueues call = some job →
      (call.effect env database.jobs).reply = some (.id id) →
      ∃ row ∈ (call.effect env database.jobs).table.rows,
        row.id = id ∧ Owns context.tenant row :=
    fun hjob hid => hmakes.exists_row_of_id htenant hjob hid
  cases hmakes with
  | enqueue body job | enqueueInsert body job | enqueueRelookup body job =>
      simp only [Request.reply, enqueueReply]
      split
      · obtain ⟨row, hrow, rfl, howns⟩ := hid rfl hreply
        exact .id row hrow howns
      · exact .error _ trivial
  | cancel | cancelRecheck => exact fromTenant_cancelReply reply
  | requeue | requeueRecheck => exact fromTenant_requeueReply reply
  | claim => exact .error _ trivial
  | heartbeat id body => exact fromTenant_heartbeatReply body.leaseSeconds reply
  | complete => exact fromTenant_completeReply reply
  | fail id body errMsg permanent =>
      simp only [Call.effect, readEffect] at hreply
      split at hreply
      · cases hreply
      · cases hreply
        simp only [Request.reply, failReply]
        split
        · cases ‹_›
        · exact .error _ trivial
        · exact .error _ trivial
        · exact .error _ trivial
  | failWrite id body errMsg permanent job =>
      simp only [Request.reply, failReply]
      split
      · obtain ⟨rfl, htoken, row, hrow, hholds⟩ := exists_row_of_failWrite hreply
        have howns := hlease body.leaseToken rfl htoken row hrow hholds.2.1 hholds.2.2
        have hjob := hread row hrow hholds.1 hholds.2.2
        change FromTenant _ _ _ _ _ ⟨200, failedBody _⟩
        rw [failedBody_of_readOf hjob]
        exact .failed row hrow howns errMsg permanent
      · exact .error _ trivial
      · exact .error _ trivial
      · exact .error _ trivial

theorem confined_attemptClaim {body : ClaimRequest} (deadline : ℤ)
    (htenant : context.tenant ≠ "") (hrequest : request = .claimJob (.ok body)) :
    (attemptClaim context env database body deadline).Confined context env request
      database := by
  intro response hresponse
  have hreply : ((body.call context).effect env database.jobs).reply =
      some ((body.call context).answer env database.jobs) := rfl
  simp only [attemptClaim, hreply] at hresponse ⊢
  split at hresponse
  · rename_i job hjob
    cases hresponse
    have hok := ofJob_eq_job (Option.some.inj hjob)
    obtain ⟨row, hrow, hselects, rfl, hafter⟩ := exists_row_of_execReturning hok
    have howns : Owns context.tenant row :=
      (inTenant_iff htenant row).1 (claimable_of_selects hrow hselects).2.2.2.1
    exact .claim body hrequest _ hafter ((Statement.set_tenantID ..).trans howns) rfl
  · cases hresponse
  · cases hresponse
    exact .error _ trivial

theorem confined_foundJob {found : Except StoreError Job}
    (hfound : ∀ job, found = .ok job →
      ∃ row ∈ database.jobs.rows, Owns context.tenant row ∧ job = scanJob row) :
    (answer database (foundJob context found)).Confined context env request database := by
  apply confined_answer
  unfold foundJob
  split
  · rename_i job
    obtain ⟨row, hrow, howns, rfl⟩ := hfound job rfl
    exact .job row hrow howns
  · exact .error _ trivial
  · exact .error _ trivial

theorem confined_getJobStatus (id : String) (htenant : context.tenant ≠ "") :
    (getJobStatus context database id).Confined context env request database := by
  apply confined_foundJob
  intro job hjob
  obtain ⟨row, hrow, -, hin, rfl⟩ := getJob_eq_ok hjob
  exact ⟨row, hrow, (inTenant_iff htenant row).1 hin, rfl⟩

theorem confined_getJobByIdempotencyKey (key : String) (htenant : context.tenant ≠ "") :
    (getJobByIdempotencyKey context database key).Confined context env request database := by
  rw [getJobByIdempotencyKey]
  split
  · exact confined_reject trivial
  · apply confined_foundJob
    intro job hjob
    obtain ⟨row, hrow, -, hin, rfl⟩ := getJobByIdempotencyKey_eq_ok hjob
    exact ⟨row, hrow, (inTenant_iff htenant row).1 hin, rfl⟩

theorem fromTenant_listedJobs {included : String} {filter : ListFilter}
    (hfilter : filter.tenant = context.tenant) (htenant : context.tenant ≠ "") :
    FromTenant context env request database database (listedJobs context included
      (JobListing.listJobs context.server.collate database.jobs filter)) := by
  rcases hlist : JobListing.listJobs context.server.collate database.jobs filter with
    err | ⟨jobs, nextCursor⟩
  · exact .error _ trivial
  · obtain ⟨rows, hrows, rfl, hcursor⟩ := listJobs_eq_ok hlist
    have howned : ∀ row ∈ rows, row ∈ database.jobs.rows ∧ Owns context.tenant row := by
      intro row hrow
      have hin := (hrows row hrow).2
      rw [hfilter, inTenant_iff htenant] at hin
      exact ⟨(hrows row hrow).1, hin⟩
    simp only [listedJobs, List.map_map]
    by_cases hincluded : included = "payload"
    · simp only [if_pos hincluded]
      exact .page rows howned id (.inl rfl) nextCursor hcursor
    · simp only [if_neg hincluded]
      exact .page rows howned withoutPayload (.inr rfl) nextCursor hcursor

theorem confined_listJobs (query : ListQuery) (htenant : context.tenant ≠ "") :
    (listJobs context database query).Confined context env request database := by
  rw [listJobs]
  split
  · exact confined_reject trivial
  · split
    · exact confined_reject trivial
    · apply confined_answer
      exact fromTenant_listedJobs rfl htenant

theorem confined_cancelJob (id : String) :
    (cancelJob context database id).Confined context env request database := by
  rw [cancelJob]
  split
  · intro response hresponse
    cases hresponse
  · exact confined_reject trivial
  · exact confined_reject trivial

theorem confined_insertSchedule {sched : Schedule} (htenant : context.tenant ≠ "")
    (howner : sched.tenantID = context.tenant) :
    (insertSchedule context env database sched).Confined context env request database := by
  intro response hresponse
  cases hresponse
  rw [insertSchedule, Turn.database]
  dsimp only
  rw [ScheduleStore.createSchedule]
  rcases hinsert : database.schedules.insert
      (scheduleRow (prepareSchedule env.jobID env.storeNow sched)) with err | after
  · exact .error _ trivial
  · apply FromTenant.schedule
    · exact (Table.mem_insert hinsert).2 (.inr rfl)
    · exact tenantID_scheduleRow htenant howner ..

theorem confined_createSchedule (body : Except String CreateScheduleRequest)
    (htenant : context.tenant ≠ "") :
    (createSchedule context env database body).Confined context env (.createSchedule body)
      database := by
  cases body with
  | error message => exact confined_reject rfl
  | ok body =>
      rw [createSchedule]
      split
      · exact confined_reject trivial
      · split
        · exact confined_reject trivial
        · split
          · exact confined_reject rfl
          · split
            · rename_i err herr
              exact confined_reject ⟨body, rfl, herr⟩
            · dsimp only
              split
              · exact confined_reject trivial
              · exact confined_insertSchedule htenant rfl

theorem confined_listSchedules :
    (listSchedules context database).Confined context env request database := by
  apply confined_answer
  apply FromTenant.schedules
  intro row hrow
  rw [List.mem_insertionSort, List.mem_filter, decide_eq_true_eq] at hrow
  exact hrow

theorem confined_deleteSchedule (id : String) :
    (deleteSchedule context database id).Confined context env request database := by
  intro response hresponse
  cases hresponse
  rw [deleteSchedule]
  split
  · exact .fixed _ _ (by simp)
  · exact .error _ trivial

theorem confined_withLease {Payload : Type} {token : Payload → String}
    {turn : Payload → Turn} {body : Except String Payload}
    (hbind : ∀ message, body = .error message → request.bindError = some message)
    (hturn : ∀ payload, body = .ok payload →
      (turn payload).Confined context env request database) :
    (withLease context database token turn body).Confined context env request database := by
  cases body with
  | error message => exact confined_reject (hbind message rfl)
  | ok payload =>
      rw [withLease]
      split
      · exact confined_reject trivial
      · exact hturn payload rfl

/-- The response to the first turn of a request. -/
theorem confined_start (htenant : context.tenant ≠ "")
    (hlease : request.PresentsOwn context.tenant database.jobs) :
    (request.start context env database).Confined context env request database := by
  cases request with
  | enqueueJob body =>
      cases body with
      | error message => exact confined_reject rfl
      | ok body =>
          simp only [Request.start, enqueueJob]
          split
          · exact confined_reject trivial
          · split
            · exact confined_reject rfl
            · exact confined_runCall htenant hlease (.enqueue _ _ ⟨rfl, rfl⟩ rfl) trivial
  | getJobStatus id => exact confined_getJobStatus id htenant
  | getJobByIdempotencyKey key => exact confined_getJobByIdempotencyKey key htenant
  | listJobs query => exact confined_listJobs query htenant
  | cancelJob id => exact confined_cancelJob id
  | requeueJob id => exact confined_runCall htenant hlease (.requeue id) trivial
  | claimJob body =>
      cases body with
      | error message => exact confined_reject rfl
      | ok body =>
          simp only [Request.start, claimJob]
          split
          · exact confined_reject trivial
          · exact confined_attemptClaim _ htenant rfl
  | heartbeatJob id body =>
      apply confined_withLease
      · rintro message rfl
        rfl
      · rintro payload rfl
        exact confined_runCall htenant hlease (.heartbeat id payload _) trivial
  | completeJob id body =>
      apply confined_withLease
      · rintro message rfl
        rfl
      · rintro payload rfl
        exact confined_runCall htenant hlease (.complete id payload _) trivial
  | failJob id body =>
      apply confined_withLease
      · rintro message rfl
        rfl
      · rintro payload rfl
        exact confined_runCall htenant hlease (.fail id payload _ _) trivial
  | createSchedule body => exact confined_createSchedule body htenant
  | listSchedules => exact confined_listSchedules
  | deleteSchedule id => exact confined_deleteSchedule id

/-- The response to a later turn. -/
theorem confined_resume {progress : Progress} (htenant : context.tenant ≠ "")
    (hlease : request.PresentsOwn context.tenant database.jobs)
    (hprogress : progress.Of context.tenant request)
    (hread : progress.Read database.jobs) :
    (request.resume context env database progress).Confined context env request
      database := by
  cases progress with
  | call made => exact confined_runCall htenant hlease hprogress.1 hread
  | claim body deadline =>
      simp only [Request.resume, claimAgain]
      split
      · exact confined_answer (.fixed _ _ (by simp))
      · exact confined_attemptClaim deadline htenant hprogress

end Turns

end Conduit.Api
