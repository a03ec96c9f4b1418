import Conduit.Worker.KafkaClaim

/-!
# Calls on the job table, one statement at a time

A call of the store, the service or the Kafka worker is cut at its SQL
statements.  `Call.effect` runs the next statement of a call: what becomes of
the table, what is left to run, what the caller is told.  It also says what the
statement did to the rows as a list of events.  The program records no such
events: the results about whole runs are stated over them.
-/

namespace Conduit.JobCalls

open Models Relational JobStore JobService JobWorker

/-! ## Calls -/

/-- A call before its next statement.  Six of the constructors are calls that
have already run one: `kafkaWrite` is `UpdateJob` after its read accepted the
transition, `failWrite` is `JobService.Fail` after it loaded `job`,
`enqueueInsert` and `enqueueRelookup` are `Enqueue` after a lookup that found
nothing and after an insert the unique index refused, `recheck` is a `CancelJob`
or `RequeueDeadJob` whose write selected no row, and `deleteExec` is
`DeleteFinished` between its inner `SELECT` and its `DELETE`. -/
inductive Call
  | claimNextJob (leaseDuration : ℤ) (filter : ClaimFilter)
  | kafkaClaim (message : Job) (lease : ℤ)
  | kafkaWrite (job : Job)
  | renewLease (id leaseToken : String) (leaseDuration : ℤ)
  | releaseClaim (id leaseToken reason : String) (retryAfter : ℤ)
  | completeClaimedJob (id leaseToken : String) (metadata : Option StringMap)
  | failClaimedJob (id leaseToken errMsg : String) (nextRun : Option ℤ)
  | fail (id leaseToken errMsg : String) (permanent : Bool)
  | failWrite (id leaseToken errMsg : String) (permanent : Bool) (job : Job)
  | cancelJob (tenant id : String)
  | requeueDeadJob (tenant id : String)
  | recheck (tenant id : String)
  | requeueExpiredRunning (limit : ℤ)
  | enqueue (job : Job)
  | enqueueInsert (job : Job)
  | enqueueRelookup (job : Job)
  | deleteFinished (state : JobState) (before limit : ℤ)
  | deleteExec (ids : List String)
  deriving DecidableEq

/-- The calls that have already run a statement. -/
def Call.continues : Call → Bool
  | .kafkaWrite _ | .failWrite .. | .recheck .. | .enqueueInsert _
  | .enqueueRelookup _ | .deleteExec _ => true
  | _ => false

/-- The calls whose next statement goes with a new lease token. -/
def Call.mints : Call → Bool
  | .claimNextJob .. | .kafkaClaim .. => true
  | _ => false

/-- The calls of retention. -/
def Call.deletes : Call → Bool
  | .deleteFinished .. | .deleteExec _ => true
  | _ => false

theorem Call.mints_of_continues {call : Call} (hcontinues : call.continues = true) :
    call.mints = false := by
  cases call <;> first | rfl | cases hcontinues

/-! ## History -/

/-- How a claim ends. -/
inductive Ending
  | complete
  | fail
  | release
  | cancel
  | expiry
  deriving DecidableEq

inductive Event
  | created (id : String)
  | claimed (id leaseToken : String)
  | ended (id leaseToken : String) (how : Ending)
  | requeued (id : String)
  /-- An `Enqueue` for `(tenant, key)` returned `id`. -/
  | enqueued (tenant key id : String) (inserted published : Bool)
  deriving DecidableEq

/-- What a statement does to a row it selects, told by the row before it: a
statement that takes a lease away ends the claim that minted its token. -/
def statementEvents : Statement → Row → List Event
  | .claimNextJob _ _ _ leaseToken, row => [.claimed row.id leaseToken]
  | .updateJob job _, row => [.claimed row.id job.leaseToken]
  | .renewLease .., _ => []
  | .releaseClaim _ leaseToken _ _ _, row => [.ended row.id leaseToken .release]
  | .completeClaimedJob _ leaseToken _ _, row => [.ended row.id leaseToken .complete]
  | .failClaimedJob _ leaseToken _ _ _, row => [.ended row.id leaseToken .fail]
  | .cancelJob .., row => row.leaseToken.toList.map (.ended row.id · .cancel)
  | .requeueExpiredRunning .., row => row.leaseToken.toList.map (.ended row.id · .expiry)
  | .requeueDeadJob .., row => [.requeued row.id]

/-! ## The effect of one statement -/

/-- What a call answers its caller. -/
inductive Reply
  | done
  | id (id : String)
  | job (job : Job)
  | count (affected : ℕ)
  | error (err : StoreError)
  deriving DecidableEq

def Reply.ofUnit : Except StoreError Unit → Reply
  | .ok _ => .done
  | .error err => .error err

def Reply.ofJob : Except StoreError Job → Reply
  | .ok found => .job found
  | .error err => .error err

structure Effect where
  table : JobTable
  events : List Event := []
  /-- The call left to run, when this was not its last statement. -/
  next : Option Call := none
  reply : Option Reply := none
  published : Option Job := none
  minted : Option String := none

/-- The `UPDATE` a call is about to run, if its next statement is one. -/
def Call.statement (env : Env) (table : JobTable) : Call → Option Statement
  | .claimNextJob leaseDuration filter =>
      some (claimNextJobStatement table env.storeNow env.dbNow
        (newLeaseToken env.random) env.locked leaseDuration filter)
  | .kafkaWrite job => some (.updateJob job env.storeNow)
  | .renewLease id leaseToken leaseDuration =>
      renewLeaseStatement env.storeNow env.dbNow id leaseToken leaseDuration
  | .releaseClaim id leaseToken reason retryAfter =>
      some (.releaseClaim id leaseToken reason (env.storeNow + retryAfter) env.dbNow)
  | .completeClaimedJob id leaseToken metadata =>
      completeClaimedJobStatement env.dbNow id leaseToken metadata
  | .failClaimedJob id leaseToken errMsg nextRun =>
      failClaimedJobStatement env.dbNow id leaseToken errMsg nextRun
  | .failWrite id leaseToken errMsg permanent job =>
      failClaimedJobStatement env.dbNow id leaseToken errMsg
        (failNextRun env job permanent)
  | .cancelJob tenant id => some (.cancelJob tenant id env.dbNow)
  | .requeueDeadJob tenant id => some (.requeueDeadJob tenant id env.dbNow)
  | .requeueExpiredRunning limit =>
      requeueExpiredRunningStatement table env.dbNow env.locked limit
  | _ => none

/-- `CancelJob` and `RequeueDeadJob` go on to read the row when their write
selected none. -/
def Call.afterStatement (table : JobTable) (statement : Statement) : Call → Option Call
  | .cancelJob tenant id | .requeueDeadJob tenant id =>
      if table.affected statement.update = [] then some (.recheck tenant id) else none
  | _ => none

/-- What the store or service method behind a call answers, for the calls that
run an `UPDATE`. -/
def Call.answer (env : Env) (table : JobTable) : Call → Reply
  | .claimNextJob leaseDuration filter =>
      .ofJob (JobStore.claimNextJob table env.storeNow env.dbNow (newLeaseToken env.random)
        env.locked leaseDuration filter).1
  | .kafkaWrite job => .ofUnit (JobStore.updateJobWrite table env.storeNow job).1
  | .renewLease id leaseToken leaseDuration =>
      .ofUnit (JobStore.renewLease table env.storeNow env.dbNow id leaseToken leaseDuration).1
  | .releaseClaim id leaseToken reason retryAfter =>
      .ofUnit
        (JobStore.releaseClaim table env.storeNow env.dbNow id leaseToken reason retryAfter).1
  | .completeClaimedJob id leaseToken metadata =>
      .ofJob (JobStore.completeClaimedJob table env.dbNow id leaseToken metadata).1
  | .failClaimedJob id leaseToken errMsg nextRun =>
      .ofUnit (JobStore.failClaimedJob table env.dbNow id leaseToken errMsg nextRun).1
  | .failWrite id leaseToken errMsg permanent job =>
      let nextRun := failNextRun env job permanent
      match (JobStore.failClaimedJob table env.dbNow id leaseToken errMsg nextRun).1 with
      | .ok _ => .job (failedJob job errMsg nextRun)
      | .error err => .error err
  | .requeueExpiredRunning limit =>
      .count (JobStore.requeueExpiredRunning table env.dbNow env.locked limit).1
  | _ => .done

/-- `Enqueue` from its insert on. -/
def enqueueInsertEffect (env : Env) (table : JobTable) (job : Job) : Effect :=
  let prepared := prepareJob env job
  match createJob table env.storeNow prepared with
  | .ok inserted =>
      let publishes := shouldPublishImmediately prepared env.now
      { table := inserted
        events := [.enqueued prepared.tenantID prepared.idempotencyKey prepared.id
          true publishes, .created prepared.id]
        reply := some (.id prepared.id)
        published := if publishes then some (delivered prepared) else none }
  | .error err =>
      if err = .duplicateIdempotencyKey ∧ prepared.idempotencyKey ≠ ""
      then { table, next := some (.enqueueRelookup prepared) }
      else { table, reply := some (.error err) }

/-- A lookup of `Enqueue`.  The row it finds is the answer; when it finds none,
`missed` is what is left to run. -/
def enqueueLookupEffect (table : JobTable) (job : Job) (missed : Option Call) :
    Effect :=
  match getJobByIdempotencyKey table job.tenantID job.idempotencyKey with
  | .ok existing =>
      { table
        events := [.enqueued job.tenantID job.idempotencyKey existing.id false false]
        reply := some (.id existing.id) }
  | .error err =>
      if err = .jobNotFound ∧ missed.isSome = true then { table, next := missed }
      else { table, reply := some (.error err) }

/-- A read that leads to a second statement or to an error. -/
def readEffect {Value : Type} (table : JobTable) (read : Except StoreError Value)
    (next : Value → Call) (minted : Option String) : Effect :=
  match read with
  | .ok value => { table, next := some (next value), minted }
  | .error err => { table, reply := some (.error err), minted }

/-- The calls whose next statement is an `UPDATE`. -/
def Call.updateEffect (env : Env) (table : JobTable) (call : Call) : Effect :=
  match call.statement env table with
  | none => { table, reply := some (call.answer env table) }
  | some statement =>
      let next := call.afterStatement table statement
      { table := table.exec statement.update
        events := (table.affected statement.update).flatMap (statementEvents statement)
        next
        reply := if next.isSome then none else some (call.answer env table)
        minted := if call.mints then some (newLeaseToken env.random) else none }

/-- Run the next statement of a call. -/
def Call.effect (env : Env) (table : JobTable) : Call → Effect
  | .enqueue job =>
      let job := withTenant job
      if job.idempotencyKey = "" then enqueueInsertEffect env table job
      else enqueueLookupEffect table job (some (.enqueueInsert job))
  | .enqueueInsert job => enqueueInsertEffect env table job
  | .enqueueRelookup job => enqueueLookupEffect table job none
  | .kafkaClaim message lease =>
      let leaseToken := newLeaseToken env.random
      let job := claimMessage lease env.now leaseToken message
      if ClaimsMessage env.now message then
        readEffect table (updateJobRead table job) (fun _ => .kafkaWrite job)
          (some leaseToken)
      else { table, reply := some .done }
  | .fail id leaseToken errMsg permanent =>
      readEffect table (getJob table anyTenant id)
        (.failWrite id leaseToken errMsg permanent) none
  | .deleteFinished state before limit =>
      readEffect table (deleteFinishedSelect table state before limit) .deleteExec none
  | .deleteExec ids =>
      let deleted := deleteFinishedExec table ids
      { table := deleted.2, reply := some (.count deleted.1) }
  | .recheck tenant id => { table, reply := some (.error (missedWrite table tenant id)) }
  | call => call.updateEffect env table

/-- Run a call without interruption, for at most the given number of statements. -/
def Call.run (env : Env) : ℕ → JobTable → Call → Option Reply × JobTable
  | 0, table, _ => (none, table)
  | statements + 1, table, call =>
      let effect := call.effect env table
      match effect.next with
      | some next => next.run env statements effect.table
      | none => (effect.reply, effect.table)

/-! ## What a statement can do

The lemmas of this section are the only ones that look inside `Call.effect`. -/

/-- The call is at the insert of `Enqueue`, for `job`. -/
def Call.Inserts (call : Call) (job : Job) : Prop :=
  call = .enqueueInsert job ∨
    ∃ requested, call = .enqueue requested ∧ job = withTenant requested ∧
      job.idempotencyKey = ""

/-- The call is at a lookup of `Enqueue`, for `job`. -/
def Call.LooksUp (call : Call) (job : Job) : Prop :=
  call = .enqueueRelookup job ∨
    ∃ requested, call = .enqueue requested ∧ job = withTenant requested ∧
      job.idempotencyKey ≠ ""

/-- The table and the events after the next statement of a call. -/
inductive Call.Does (env : Env) (table : JobTable) (call : Call) :
    JobTable → List Event → Prop
  | nothing : call.Does env table table []
  | found (job existing : Job) (hcall : call.LooksUp job)
      (hfound : getJobByIdempotencyKey table job.tenantID job.idempotencyKey =
        .ok existing) :
      call.Does env table table
        [.enqueued job.tenantID job.idempotencyKey existing.id false false]
  | updated (statement : Statement)
      (hstatement : call.statement env table = some statement) :
      call.Does env table (table.exec statement.update)
        ((table.affected statement.update).flatMap (statementEvents statement))
  | inserted (job : Job) (table' : JobTable) (hcall : call.Inserts job)
      (hcreate : createJob table env.storeNow (prepareJob env job) = .ok table') :
      call.Does env table table'
        [.enqueued (prepareJob env job).tenantID (prepareJob env job).idempotencyKey
          (prepareJob env job).id true
          (shouldPublishImmediately (prepareJob env job) env.now),
          .created (prepareJob env job).id]
  | deleted (ids : List String) (hcall : call = .deleteExec ids) :
      call.Does env table (deleteFinishedExec table ids).2 []

/-- A row that is not deleted keeps its identity. -/
theorem Call.Does.persists {env : Env} {table after : JobTable} {call : Call}
    {events : List Event} (hdoes : call.Does env table after events) {row : Row}
    (hrow : row ∈ table.rows)
    (hkept : ∀ ids, call = .deleteExec ids → row.id ∉ ids) :
    ∃ later ∈ after.rows, later.id = row.id ∧ later.tenantID = row.tenantID ∧
      later.idempotencyKey = row.idempotencyKey := by
  cases hdoes with
  | nothing | found => exact ⟨row, hrow, rfl, rfl, rfl⟩
  | updated statement hstatement =>
      refine ⟨_, Table.mem_exec.2 ⟨row, hrow, rfl⟩, ?_⟩
      split
      · exact ⟨statement.set_id row, statement.set_tenantID row,
          statement.set_idempotencyKey row⟩
      · exact ⟨rfl, rfl, rfl⟩
  | inserted job after hcall hcreate =>
      have hlater := (Table.mem_insert (createJob_eq_ok hcreate)).2 (.inl hrow)
      exact ⟨row, hlater, rfl, rfl, rfl⟩
  | deleted ids hcall =>
      exact ⟨row, Table.mem_delete.2 ⟨hrow, hkept ids hcall⟩, rfl, rfl, rfl⟩

/-- The calls left to run after the next statement of a call. -/
inductive Call.Leads (env : Env) (table : JobTable) : Call → Call → Prop
  | kafkaWrite (message : Job) (lease : ℤ) (hclaims : ClaimsMessage env.now message)
      (hread : updateJobRead table
        (claimMessage lease env.now (newLeaseToken env.random) message) = .ok ()) :
      Leads env table (.kafkaClaim message lease)
        (.kafkaWrite (claimMessage lease env.now (newLeaseToken env.random) message))
  | failWrite (id leaseToken errMsg : String) (permanent : Bool) (job : Job)
      (hread : getJob table anyTenant id = .ok job) :
      Leads env table (.fail id leaseToken errMsg permanent)
        (.failWrite id leaseToken errMsg permanent job)
  | deleteExec (state : JobState) (before limit : ℤ) (ids : List String)
      (hread : deleteFinishedSelect table state before limit = .ok ids) :
      Leads env table (.deleteFinished state before limit) (.deleteExec ids)
  | enqueueInsert (job : Job) (hkey : (withTenant job).idempotencyKey ≠ "") :
      Leads env table (.enqueue job) (.enqueueInsert (withTenant job))
  | enqueueRelookup (call : Call) (job : Job) (hcall : call.Inserts job)
      (hkey : job.idempotencyKey ≠ "") :
      Leads env table call (.enqueueRelookup (prepareJob env job))
  | recheck (call : Call) (tenant id : String)
      (hcall : call = .cancelJob tenant id ∨ call = .requeueDeadJob tenant id) :
      Leads env table call (.recheck tenant id)

/-- Only retention goes on to a delete. -/
theorem Call.Leads.deletes {env : Env} {table : JobTable} {call next : Call}
    (hleads : call.Leads env table next) (hcall : call.deletes = false) :
    next.deletes = false := by
  cases hleads with
  | deleteExec => cases hcall
  | _ => rfl

section Inversion

variable (env : Env) (table : JobTable)

theorem enqueueInsertEffect_does {call : Call} {job : Job} (hcall : call.Inserts job) :
    call.Does env table (enqueueInsertEffect env table job).table
      (enqueueInsertEffect env table job).events := by
  rw [enqueueInsertEffect]
  rcases hcreate : createJob table env.storeNow (prepareJob env job) with err | table'
  · dsimp only
    split
    · exact .nothing
    · exact .nothing
  · exact .inserted job table' hcall hcreate

theorem enqueueLookupEffect_does {call : Call} {job : Job} {missed : Option Call}
    (hcall : call.LooksUp job) :
    call.Does env table (enqueueLookupEffect table job missed).table
      (enqueueLookupEffect table job missed).events := by
  rw [enqueueLookupEffect]
  rcases hfound : getJobByIdempotencyKey table job.tenantID job.idempotencyKey with
    err | existing
  · dsimp only
    split
    · exact .nothing
    · exact .nothing
  · exact .found job existing hcall hfound

@[simp]
theorem readEffect_table {Value : Type} (read : Except StoreError Value)
    (next : Value → Call) (minted : Option String) :
    (readEffect table read next minted).table = table := by
  cases read <;> rfl

@[simp]
theorem readEffect_events {Value : Type} (read : Except StoreError Value)
    (next : Value → Call) (minted : Option String) :
    (readEffect table read next minted).events = [] := by
  cases read <;> rfl

theorem updateEffect_does (call : Call) :
    call.Does env table (call.updateEffect env table).table
      (call.updateEffect env table).events := by
  rw [Call.updateEffect]
  rcases hstatement : call.statement env table with _ | statement
  · exact .nothing
  · exact .updated statement hstatement

theorem effect_does (call : Call) :
    call.Does env table (call.effect env table).table (call.effect env table).events := by
  cases call with
  | enqueue job =>
      simp only [Call.effect]
      by_cases hkey : (withTenant job).idempotencyKey = ""
      · rw [if_pos hkey]
        exact enqueueInsertEffect_does env table (.inr ⟨job, rfl, rfl, hkey⟩)
      · rw [if_neg hkey]
        exact enqueueLookupEffect_does env table (.inr ⟨job, rfl, rfl, hkey⟩)
  | enqueueInsert job => exact enqueueInsertEffect_does env table (.inl rfl)
  | enqueueRelookup job => exact enqueueLookupEffect_does env table (.inl rfl)
  | kafkaClaim message lease =>
      simp only [Call.effect]
      split
      · rw [readEffect_table, readEffect_events]
        exact .nothing
      · exact .nothing
  | fail id leaseToken errMsg permanent | deleteFinished state before limit =>
      simp only [Call.effect, readEffect_table, readEffect_events]
      exact .nothing
  | deleteExec ids => exact .deleted ids rfl
  | recheck tenant id => exact .nothing
  | _ => exact updateEffect_does env table _

/-- An `UPDATE` that is the last statement of its call. -/
theorem updateEffect_last (env : Env) (table : JobTable) (call : Call)
    (hlast : ∀ statement, call.afterStatement table statement = none) :
    (call.updateEffect env table).next = none ∧
      (call.updateEffect env table).reply = some (call.answer env table) ∧
      (call.updateEffect env table).table =
        ((call.statement env table).elim table fun statement =>
          table.exec statement.update) := by
  rw [Call.updateEffect]
  rcases call.statement env table with _ | statement
  · exact ⟨rfl, rfl, rfl⟩
  · simp [hlast]

/-! ### Which call runs which statement -/

section Statements

variable {env table} {call : Call}

theorem withToken_eq_some {leaseToken : String} {statement result : Statement}
    (hresult : withToken leaseToken statement = some result) :
    leaseToken ≠ "" ∧ statement = result := by
  rw [withToken] at hresult
  split at hresult
  · cases hresult
  · exact ⟨‹_›, Option.some.inj hresult⟩

/-- The `UPDATE` of each call. -/
inductive Call.Issues (env : Env) (table : JobTable) : Call → Statement → Prop
  | claimNextJob (leaseDuration : ℤ) (filter : ClaimFilter) (selected : Option String)
      (now expires : ℤ) (leaseToken : String)
      (heq : claimNextJobStatement table env.storeNow env.dbNow (newLeaseToken env.random)
          env.locked leaseDuration filter =
        .claimNextJob selected now expires leaseToken) :
      Issues env table (.claimNextJob leaseDuration filter)
        (.claimNextJob selected now expires leaseToken)
  | kafkaWrite (job : Job) :
      Issues env table (.kafkaWrite job) (.updateJob job env.storeNow)
  | renewLease (id leaseToken : String) (leaseDuration : ℤ) :
      Issues env table (.renewLease id leaseToken leaseDuration)
        (.renewLease id leaseToken (env.storeNow + leaseDuration) env.dbNow)
  | releaseClaim (id leaseToken reason : String) (retryAfter : ℤ) :
      Issues env table (.releaseClaim id leaseToken reason retryAfter)
        (.releaseClaim id leaseToken reason (env.storeNow + retryAfter) env.dbNow)
  | completeClaimedJob (id leaseToken : String) (metadata : Option StringMap) :
      Issues env table (.completeClaimedJob id leaseToken metadata)
        (.completeClaimedJob id leaseToken (.item (.object (metadata.getD ∅))) env.dbNow)
  | failClaimedJob (id leaseToken errMsg : String) (nextRun : Option ℤ) :
      Issues env table (.failClaimedJob id leaseToken errMsg nextRun)
        (.failClaimedJob id leaseToken errMsg nextRun env.dbNow)
  | failWrite (id leaseToken errMsg : String) (permanent : Bool) (job : Job) :
      Issues env table (.failWrite id leaseToken errMsg permanent job)
        (.failClaimedJob id leaseToken errMsg (failNextRun env job permanent) env.dbNow)
  | cancelJob (tenant id : String) :
      Issues env table (.cancelJob tenant id) (.cancelJob tenant id env.dbNow)
  | requeueDeadJob (tenant id : String) :
      Issues env table (.requeueDeadJob tenant id) (.requeueDeadJob tenant id env.dbNow)
  | requeueExpiredRunning (limit : ℤ) (expired : List String) (dbNow : ℤ)
      (heq : requeueExpiredRunningStatement table env.dbNow env.locked limit =
        some (.requeueExpiredRunning expired dbNow)) :
      Issues env table (.requeueExpiredRunning limit) (.requeueExpiredRunning expired dbNow)

theorem issues_of_statement {statement : Statement}
    (hstatement : call.statement env table = some statement) :
    call.Issues env table statement := by
  cases call with
  | claimNextJob leaseDuration filter =>
      cases hstatement
      exact .claimNextJob leaseDuration filter _ _ _ _ rfl
  | kafkaWrite | releaseClaim | cancelJob | requeueDeadJob =>
      cases hstatement
      constructor
  | renewLease | completeClaimedJob | failClaimedJob | failWrite =>
      cases (withToken_eq_some hstatement).2
      constructor
  | requeueExpiredRunning limit =>
      have heq := hstatement
      rw [Call.statement, requeueExpiredRunningStatement] at heq
      split at heq
      · cases heq
      · cases heq
        exact .requeueExpiredRunning limit _ _ hstatement
  | _ => cases hstatement

theorem statement_eq_claimNextJob {selected : Option String} {now expires : ℤ}
    {leaseToken : String}
    (hstatement : call.statement env table =
      some (.claimNextJob selected now expires leaseToken)) :
    ∃ leaseDuration filter, call = .claimNextJob leaseDuration filter ∧
      claimNextJobStatement table env.storeNow env.dbNow (newLeaseToken env.random)
          env.locked leaseDuration filter =
        .claimNextJob selected now expires leaseToken := by
  cases issues_of_statement hstatement with
  | claimNextJob leaseDuration filter _ _ _ _ heq => exact ⟨leaseDuration, filter, rfl, heq⟩

theorem statement_eq_updateJob {job : Job} {updatedAt : ℤ}
    (hstatement : call.statement env table = some (.updateJob job updatedAt)) :
    call = .kafkaWrite job ∧ updatedAt = env.storeNow := by
  cases issues_of_statement hstatement with
  | kafkaWrite => exact ⟨rfl, rfl⟩

theorem statement_eq_renewLease {id leaseToken : String} {expires dbNow : ℤ}
    (hstatement : call.statement env table = some (.renewLease id leaseToken expires dbNow)) :
    ∃ leaseDuration, call = .renewLease id leaseToken leaseDuration := by
  cases issues_of_statement hstatement with
  | renewLease _ _ leaseDuration => exact ⟨leaseDuration, rfl⟩

theorem statement_eq_requeueExpiredRunning {expired : List String} {dbNow : ℤ}
    (hstatement : call.statement env table =
      some (.requeueExpiredRunning expired dbNow)) :
    ∃ limit, call = .requeueExpiredRunning limit ∧
      requeueExpiredRunningStatement table env.dbNow env.locked limit =
        some (.requeueExpiredRunning expired dbNow) := by
  cases issues_of_statement hstatement with
  | requeueExpiredRunning limit _ _ heq => exact ⟨limit, rfl, heq⟩

theorem statement_eq_failClaimedJob {id leaseToken errMsg : String}
    {nextRun : Option ℤ} {dbNow : ℤ}
    (hstatement : call.statement env table =
      some (.failClaimedJob id leaseToken errMsg nextRun dbNow)) :
    call = .failClaimedJob id leaseToken errMsg nextRun ∨
      ∃ permanent job, call = .failWrite id leaseToken errMsg permanent job ∧
        nextRun = failNextRun env job permanent := by
  cases issues_of_statement hstatement with
  | failClaimedJob => exact .inl rfl
  | failWrite _ _ _ permanent job => exact .inr ⟨permanent, job, rfl, rfl⟩

theorem statement_eq_requeueDeadJob {tenant id : String} {dbNow : ℤ}
    (hstatement : call.statement env table = some (.requeueDeadJob tenant id dbNow)) :
    call = .requeueDeadJob tenant id := by
  cases issues_of_statement hstatement with
  | requeueDeadJob => rfl

theorem claimed_mem_statementEvents {statement : Statement} {row : Row}
    {id leaseToken : String}
    (hevent : .claimed id leaseToken ∈ statementEvents statement row) :
    (∃ selected now expires, statement = .claimNextJob selected now expires leaseToken) ∨
      ∃ job updatedAt, statement = .updateJob job updatedAt ∧
        leaseToken = job.leaseToken := by
  cases statement with
  | claimNextJob selected now expires token =>
      cases List.mem_singleton.1 hevent
      exact .inl ⟨selected, now, expires, rfl⟩
  | updateJob job updatedAt =>
      cases List.mem_singleton.1 hevent
      exact .inr ⟨job, updatedAt, rfl, rfl⟩
  | cancelJob | requeueExpiredRunning =>
      obtain ⟨token, -, heq⟩ := List.mem_map.1 hevent
      cases heq
  | renewLease => cases hevent
  | _ => cases List.mem_singleton.1 hevent

/-- The token a claim of the call goes with. -/
def Grants (env : Env) (call : Call) (leaseToken : String) : Prop :=
  ((∃ leaseDuration filter, call = .claimNextJob leaseDuration filter) ∧
      leaseToken = newLeaseToken env.random) ∨
    ∃ job, call = .kafkaWrite job ∧ leaseToken = job.leaseToken

theorem grants_of_statement {statement : Statement} {row : Row}
    {id leaseToken : String} (hstatement : call.statement env table = some statement)
    (hevent : .claimed id leaseToken ∈ statementEvents statement row) :
    Grants env call leaseToken := by
  rcases claimed_mem_statementEvents hevent with
    ⟨selected, now, expires, rfl⟩ | ⟨job, updatedAt, rfl, htoken⟩
  · obtain ⟨leaseDuration, filter, rfl, heq⟩ := statement_eq_claimNextJob hstatement
    cases heq
    exact .inl ⟨⟨leaseDuration, filter, rfl⟩, rfl⟩
  · exact .inr ⟨job, (statement_eq_updateJob hstatement).1, htoken⟩

theorem grants_of_effect {id leaseToken : String}
    (hevent : .claimed id leaseToken ∈ (call.effect env table).events) :
    Grants env call leaseToken := by
  have hdoes := effect_does env table call
  generalize (call.effect env table).table = after at hdoes
  generalize (call.effect env table).events = events at hdoes hevent
  cases hdoes with
  | nothing => cases hevent
  | found job existing hcall hfound => simp at hevent
  | updated statement hstatement =>
      obtain ⟨row, -, hrow⟩ := List.mem_flatMap.1 hevent
      exact grants_of_statement hstatement hrow
  | inserted job after hcall hcreated => simp at hevent
  | deleted ids hcall => cases hevent

/-- How a row comes to carry a token after a call: it carried it before, untouched or
under a renewal, or the call claimed the job with it. -/
inductive Leased (env : Env) (table : JobTable) (call : Call) (events : List Event)
    (leaseToken : String) (row : Row) : Prop
  | kept (hrow : row ∈ table.rows)
  | renewed (old : Row) (hold : old ∈ table.rows) (hheld : old.leaseToken = some leaseToken)
      (id : String) (lease expires dbNow : ℤ) (hcall : call = .renewLease id leaseToken lease)
      (hset : row = (Statement.renewLease id leaseToken expires dbNow).set old)
  | claimed (hgrants : Grants env call leaseToken) (hevent : .claimed row.id leaseToken ∈ events)
      (hstate : (∀ job, call = .kafkaWrite job → job.state = .running) → row.state = .running)

theorem leased_of_does {after : JobTable} {events : List Event}
    (hdoes : call.Does env table after events)
    (hinserts : ∀ job, call.Inserts job → job.leaseToken = "") {row : Row}
    (hrow : row ∈ after.rows) {leaseToken : String}
    (htoken : row.leaseToken = some leaseToken) :
    Leased env table call events leaseToken row := by
  cases hdoes with
  | nothing | found => exact .kept hrow
  | updated statement hstatement =>
      obtain ⟨old, hold, rfl⟩ := Table.mem_exec.1 hrow
      by_cases hselects : statement.update.selects old
      · rw [if_pos hselects] at htoken ⊢
        have hevents : ∀ event ∈ statementEvents statement old,
            event ∈ (table.affected statement.update).flatMap (statementEvents statement) :=
          fun event hevent =>
            List.mem_flatMap.2 ⟨old, Table.mem_affected.2 ⟨hold, hselects⟩, hevent⟩
        rcases Statement.leaseToken_set htoken with
          ⟨hheld, id, token, expires, dbNow, rfl⟩ | ⟨selected, now, expires, rfl⟩ |
          ⟨job, updatedAt, rfl, rfl⟩
        · obtain ⟨lease, rfl⟩ := statement_eq_renewLease hstatement
          have hsame : token = leaseToken := Option.some.inj (hselects.2.2.symm.trans hheld)
          rw [hsame]
          exact .renewed old hold hheld id lease expires dbNow rfl rfl
        · have hclaims : .claimed old.id leaseToken ∈
              statementEvents (.claimNextJob selected now expires leaseToken) old :=
            List.mem_singleton_self _
          exact .claimed (grants_of_statement hstatement hclaims) (hevents _ hclaims)
            fun _ => rfl
        · have hclaimed := hevents _ (List.mem_singleton_self _)
          obtain ⟨rfl, -⟩ := statement_eq_updateJob hstatement
          exact .claimed (.inr ⟨job, rfl, rfl⟩) hclaimed fun hrunning => hrunning job rfl
      · rw [if_neg hselects]
        exact .kept hold
  | inserted job after hcall hcreated =>
      rcases (Table.mem_insert (createJob_eq_ok hcreated)).1 hrow with hold | rfl
      · exact .kept hold
      · rw [createRow_leaseToken (hinserts job hcall)] at htoken
        cases htoken
  | deleted ids hdelete => exact .kept (Table.mem_delete.1 hrow).1

/-- A claim only ever writes a row that is pending and due. -/
theorem claimable_of_statement {selected : Option String} {now expires : ℤ}
    {leaseToken : String} {row : Row}
    (hstatement : call.statement env table =
      some (.claimNextJob selected now expires leaseToken))
    (hrow : row ∈ table.rows)
    (hselects : (Statement.claimNextJob selected now expires leaseToken).Selects row) :
    ∃ filter, Claimable env.dbNow filter env.locked row := by
  obtain ⟨leaseDuration, filter, -, heq⟩ := statement_eq_claimNextJob hstatement
  rw [← heq] at hselects
  exact ⟨filter, claimable_of_selects hrow hselects⟩

/-- The reaper only ever writes a row that is running. -/
theorem running_of_statement {expired : List String} {dbNow : ℤ} {row : Row}
    (hstatement : call.statement env table = some (.requeueExpiredRunning expired dbNow))
    (hrow : row ∈ table.rows)
    (hselects : (Statement.requeueExpiredRunning expired dbNow).Selects row) :
    row.state = .running := by
  obtain ⟨limit, -, heq⟩ := statement_eq_requeueExpiredRunning hstatement
  exact (leaseExpired_of_selects heq hrow hselects).1

/-- The only statement that selects a finished row is the requeue of a dead job. -/
theorem requeues_of_selects {statement : Statement} {row : Row}
    (hrow : row ∈ table.rows) (hstatement : call.statement env table = some statement)
    (hselects : statement.Selects row)
    (hupdate : ∀ job updatedAt, statement = .updateJob job updatedAt →
      row.state = .pending)
    (hfinished : row.state = .completed ∨ row.state = .dead) :
    row.state = .dead ∧
      ∃ tenant, call = .requeueDeadJob tenant row.id ∧ InTenant tenant row := by
  cases statement with
  | claimNextJob selected now expires leaseToken =>
      obtain ⟨filter, hclaimable⟩ := claimable_of_statement hstatement hrow hselects
      simp [hclaimable.1] at hfinished
  | updateJob job updatedAt => simp [hupdate job updatedAt rfl] at hfinished
  | requeueExpiredRunning expired dbNow =>
      simp [running_of_statement hstatement hrow hselects] at hfinished
  | cancelJob tenant id dbNow =>
      rcases hselects.2.2 with hstate | hstate | hstate <;> simp [hstate] at hfinished
  | requeueDeadJob tenant id dbNow =>
      rw [statement_eq_requeueDeadJob hstatement, hselects.1]
      exact ⟨hselects.2.1, tenant, rfl, hselects.2.2⟩
  | _ => simp [hselects.2.1] at hfinished

end Statements

/-! ### What is left to run -/

variable {env table}

theorem readEffect_next {Value : Type} {read : Except StoreError Value}
    {follow : Value → Call} {minted : Option String} {next : Call}
    (hnext : (readEffect table read follow minted).next = some next) :
    ∃ value, read = .ok value ∧ next = follow value := by
  cases read with
  | error err => cases hnext
  | ok value => exact ⟨value, rfl, (Option.some.inj hnext).symm⟩

theorem enqueueInsertEffect_next {job : Job} {next : Call}
    (hnext : (enqueueInsertEffect env table job).next = some next) :
    job.idempotencyKey ≠ "" ∧ next = .enqueueRelookup (prepareJob env job) := by
  rw [enqueueInsertEffect] at hnext
  rcases hcreate : createJob table env.storeNow (prepareJob env job) with err | table'
  · simp only [hcreate] at hnext
    split at hnext
    · rename_i hduplicate
      exact ⟨hduplicate.2, (Option.some.inj hnext).symm⟩
    · cases hnext
  · simp [hcreate] at hnext

theorem enqueueLookupEffect_next {job : Job} {missed : Option Call} {next : Call}
    (hnext : (enqueueLookupEffect table job missed).next = some next) :
    missed = some next := by
  rw [enqueueLookupEffect] at hnext
  rcases hfound : getJobByIdempotencyKey table job.tenantID job.idempotencyKey with
    err | existing
  · simp only [hfound] at hnext
    split at hnext
    · exact hnext
    · cases hnext
  · simp [hfound] at hnext

theorem updateEffect_next {call next : Call}
    (hnext : (call.updateEffect env table).next = some next) :
    ∃ tenant id, (call = .cancelJob tenant id ∨ call = .requeueDeadJob tenant id) ∧
      next = .recheck tenant id := by
  rw [Call.updateEffect] at hnext
  split at hnext
  · cases hnext
  · dsimp only at hnext
    unfold Call.afterStatement at hnext
    split at hnext
    · rename_i tenant id _
      split at hnext
      · exact ⟨tenant, id, .inl rfl, (Option.some.inj hnext).symm⟩
      · cases hnext
    · rename_i tenant id _
      split at hnext
      · exact ⟨tenant, id, .inr rfl, (Option.some.inj hnext).symm⟩
      · cases hnext
    · cases hnext

theorem effect_leads {call next : Call}
    (hnext : (call.effect env table).next = some next) :
    Call.Leads env table call next := by
  cases call with
  | enqueue job =>
      simp only [Call.effect] at hnext
      by_cases hkey : (withTenant job).idempotencyKey = ""
      · rw [if_pos hkey] at hnext
        exact absurd hkey (enqueueInsertEffect_next hnext).1
      · rw [if_neg hkey] at hnext
        cases enqueueLookupEffect_next hnext
        exact .enqueueInsert job hkey
  | enqueueInsert job =>
      obtain ⟨hkey, rfl⟩ := enqueueInsertEffect_next hnext
      exact .enqueueRelookup _ job (.inl rfl) hkey
  | enqueueRelookup job => cases enqueueLookupEffect_next hnext
  | kafkaClaim message lease =>
      simp only [Call.effect] at hnext
      split at hnext
      · rename_i hclaims
        obtain ⟨_, hread, rfl⟩ := readEffect_next hnext
        exact .kafkaWrite message lease hclaims hread
      · cases hnext
  | fail id leaseToken errMsg permanent =>
      obtain ⟨job, hread, rfl⟩ := readEffect_next hnext
      exact .failWrite id leaseToken errMsg permanent job hread
  | deleteFinished state before limit =>
      obtain ⟨ids, hread, rfl⟩ := readEffect_next hnext
      exact .deleteExec state before limit ids hread
  | deleteExec ids | recheck tenant id => cases hnext
  | _ =>
      obtain ⟨tenant, id, hcall, rfl⟩ := updateEffect_next hnext
      exact .recheck _ tenant id hcall

/-! ### Messages and tokens -/

theorem enqueueInsertEffect_published {job message : Job}
    (hpublished : (enqueueInsertEffect env table job).published = some message) :
    message = delivered (prepareJob env job) ∧
      shouldPublishImmediately (prepareJob env job) env.now = true ∧
      createJob table env.storeNow (prepareJob env job) =
        .ok (enqueueInsertEffect env table job).table := by
  rw [enqueueInsertEffect] at hpublished ⊢
  rcases hcreate : createJob table env.storeNow (prepareJob env job) with err | inserted
  · simp only [hcreate] at hpublished
    split at hpublished <;> cases hpublished
  · simp only [hcreate] at hpublished
    split at hpublished
    · rename_i hnow
      exact ⟨(Option.some.inj hpublished).symm, hnow, rfl⟩
    · cases hpublished

theorem effect_published {call : Call} {message : Job}
    (hpublished : (call.effect env table).published = some message) :
    ∃ job, call.Inserts job ∧ message = delivered (prepareJob env job) ∧
      shouldPublishImmediately (prepareJob env job) env.now = true ∧
      createJob table env.storeNow (prepareJob env job) =
        .ok (call.effect env table).table := by
  cases call with
  | enqueue job =>
      simp only [Call.effect] at hpublished ⊢
      by_cases hkey : (withTenant job).idempotencyKey = ""
      · rw [if_pos hkey] at hpublished ⊢
        exact ⟨withTenant job, .inr ⟨job, rfl, rfl, hkey⟩,
          enqueueInsertEffect_published hpublished⟩
      · rw [if_neg hkey, enqueueLookupEffect] at hpublished
        split at hpublished
        · cases hpublished
        · split at hpublished <;> cases hpublished
  | enqueueInsert job => exact ⟨job, .inl rfl, enqueueInsertEffect_published hpublished⟩
  | enqueueRelookup job =>
      simp only [Call.effect, enqueueLookupEffect] at hpublished
      split at hpublished
      · cases hpublished
      · split at hpublished <;> cases hpublished
  | kafkaClaim message lease =>
      simp only [Call.effect, readEffect] at hpublished
      split at hpublished
      · split at hpublished <;> cases hpublished
      · cases hpublished
  | fail id leaseToken errMsg permanent | deleteFinished state before limit =>
      simp only [Call.effect, readEffect] at hpublished
      split at hpublished <;> cases hpublished
  | deleteExec ids | recheck tenant id => cases hpublished
  | _ =>
      simp only [Call.effect, Call.updateEffect] at hpublished
      split at hpublished <;> cases hpublished

theorem effect_minted_kafkaClaim {message : Job} {lease : ℤ}
    (hclaims : ClaimsMessage env.now message) :
    ((Call.kafkaClaim message lease).effect env table).minted =
      some (newLeaseToken env.random) := by
  simp only [Call.effect, if_pos hclaims, readEffect]
  split <;> rfl

end Inversion

/-- What a `Fail` under way read stays true of every row that still answers to
its token. -/
theorem readOf_of_does {env : Env} {table after : JobTable} {call : Call}
    {events : List Event} {job : Job} {id leaseToken : String}
    (hread : ∀ row ∈ table.rows, row.id = id → row.leaseToken = some leaseToken →
      ReadOf job row)
    (hgrants : ¬ Grants env call leaseToken)
    (hinserts : ∀ created, call.Inserts created → created.leaseToken = "")
    (hdoes : call.Does env table after events) :
    ∀ row ∈ after.rows, row.id = id → row.leaseToken = some leaseToken →
      ReadOf job row := by
  intro row hrow hid htoken
  cases leased_of_does hdoes hinserts hrow htoken with
  | kept hold => exact hread row hold hid htoken
  | renewed old hold hheld id lease expires dbNow hcall hset =>
      rw [hset] at hid ⊢
      exact hread old hold hid hheld
  | claimed hgrant hevent hstate => exact absurd hgrant hgrants

end Conduit.JobCalls
