import Conduit.Api.TenantScope

/-!
# What a request sees

Two databases that hold the same rows of a tenant look the same to it: a turn of
one of its requests has the same response on both, leaves the same to do and does
the same to the tenant's rows.  The one call this is not shown for here is the
read of `Fail`, which looks a job up by its id alone.
-/

namespace Conduit.Api

open Models Relational JobStore JobService JobCalls JobListing ScheduleStore
open Scheduler (Database)

/-! ## The job table -/

/-- No row of another tenant stands in the way of an insert. -/
theorem compatible_of_hidden {tenant : String} {table : JobTable} {new row : Row}
    (hnew : Owns tenant new) (hrow : row ∈ table.hidden (Owns tenant)) :
    jobs.Compatible row new := by
  by_contra hclash
  rw [Schema.Compatible, not_or, not_not] at hclash
  obtain ⟨entry, hentry⟩ := Option.ne_none_iff_exists'.1 hclash.1
  have hsame := hclash.2.symm.trans hentry
  simp only [jobs, Option.map_eq_some_iff] at hentry hsame
  obtain ⟨key, -, rfl⟩ := hentry
  obtain ⟨key', -, hpair⟩ := hsame
  rw [Prod.mk.injEq] at hpair
  exact (Table.mem_hidden.1 hrow).2 (hpair.1.symm.trans hnew)

section Jobs

variable {tenant : String} {left right : JobTable}
  (hvisible : left.visible (Owns tenant) = right.visible (Owns tenant))
include hvisible

theorem getJob_congr (htenant : tenant ≠ "") (id : String) :
    getJob left tenant id = getJob right tenant id := by
  have hfind : left.rows.find? (fun row => row.id = id ∧ InTenant tenant row) =
      right.rows.find? fun row => row.id = id ∧ InTenant tenant row := by
    apply Table.find?_congr _ hvisible
    intro row hrow
    rw [decide_eq_true_eq] at hrow
    exact (inTenant_iff htenant row).1 hrow.2
  rw [getJob, getJob, hfind]

theorem getJobByIdempotencyKey_congr (htenant : tenant ≠ "") (key : String) :
    JobStore.getJobByIdempotencyKey left tenant key =
      JobStore.getJobByIdempotencyKey right tenant key := by
  have hfind : left.rows.find?
      (fun row => row.idempotencyKey = some key ∧ InTenant tenant row) =
      right.rows.find? fun row => row.idempotencyKey = some key ∧ InTenant tenant row := by
    apply Table.find?_congr _ hvisible
    intro row hrow
    rw [decide_eq_true_eq] at hrow
    exact (inTenant_iff htenant row).1 hrow.2
  rw [JobStore.getJobByIdempotencyKey, JobStore.getJobByIdempotencyKey, hfind]

theorem listJobs_congr (htenant : tenant ≠ "") (collate : String → String → Bool)
    {filter : ListFilter} (hfilter : filter.tenant = tenant) :
    JobListing.listJobs collate left filter = JobListing.listJobs collate right filter := by
  rw [JobListing.listJobs, JobListing.listJobs]
  split
  · rfl
  · rename_i start hstart
    have hselected : selectOrdered (listBefore collate) (Listed collate filter start)
        (pageLimit filter.limit + 1) left.rows =
        selectOrdered (listBefore collate) (Listed collate filter start)
          (pageLimit filter.limit + 1) right.rows := by
      apply Table.selectOrdered_congr _ _ hvisible
      intro row hlisted
      have hin := hlisted.1
      rw [hfilter] at hin
      exact (inTenant_iff htenant row).1 hin
    dsimp only
    rw [hselected]

theorem claimNextJobStatement_congr (htenant : tenant ≠ "") {filter : ClaimFilter}
    (hfilter : filter.tenant = tenant) (now dbNow : ℤ) (leaseToken : String)
    (locked : String → Bool) (leaseDuration : ℤ) :
    claimNextJobStatement left now dbNow leaseToken locked leaseDuration filter =
      claimNextJobStatement right now dbNow leaseToken locked leaseDuration filter := by
  have hselected : selectOrdered claimBefore (Claimable dbNow filter locked) 1 left.rows =
      selectOrdered claimBefore (Claimable dbNow filter locked) 1 right.rows := by
    apply Table.selectOrdered_congr _ _ hvisible
    intro row hclaimable
    have hin := hclaimable.2.2.2.1
    rw [hfilter] at hin
    exact (inTenant_iff htenant row).1 hin
  rw [claimNextJobStatement, claimNextJobStatement, hselected]

/-- A statement that selects rows of the tenant only. -/
theorem affected_congr {statement : Statement}
    (hleft : ∀ row ∈ left.rows, statement.Selects row → Owns tenant row)
    (hright : ∀ row ∈ right.rows, statement.Selects row → Owns tenant row) :
    left.affected statement.update = right.affected statement.update :=
  Table.filter_congr hleft hright hvisible

theorem visible_exec_congr (statement : Statement) :
    (left.exec statement.update).visible (Owns tenant) =
      (right.exec statement.update).visible (Owns tenant) := by
  have hset : ∀ row, Owns tenant (statement.update.set row) ↔ Owns tenant row := by
    intro row
    have hsame : (statement.update.set row).tenantID = row.tenantID :=
      statement.set_tenantID row
    rw [Owns, hsame]
  rw [Table.visible_exec hset, Table.visible_exec hset, hvisible]

/-- An insert of a row of the tenant, with an id no row of another tenant has. -/
theorem createJob_congr {job : Job} (now : ℤ) (hjob : job.tenantID = tenant)
    (hleft : ∀ row ∈ left.hidden (Owns tenant), row.id ≠ job.id)
    (hright : ∀ row ∈ right.hidden (Owns tenant), row.id ≠ job.id) :
    (createJob left now job).map (Table.visible (Owns tenant)) =
      (createJob right now job).map (Table.visible (Owns tenant)) := by
  have howns : Owns tenant (createRow now job) := hjob
  have hinsert : (left.insert (createRow now job)).map (Table.visible (Owns tenant)) =
      (right.insert (createRow now job)).map (Table.visible (Owns tenant)) :=
    Table.insert_congr hleft hright (fun row hrow => compatible_of_hidden howns hrow)
      (fun row hrow => compatible_of_hidden howns hrow) howns hvisible
  rw [createJob, createJob]
  generalize left.insert (createRow now job) = leftAfter at hinsert ⊢
  generalize right.insert (createRow now job) = rightAfter at hinsert ⊢
  cases leftAfter with
  | ok leftTable =>
      cases rightAfter with
      | ok rightTable =>
          dsimp only
          exact congrArg Except.ok (Except.ok.inj hinsert)
      | error err => cases hinsert
  | error err =>
      cases rightAfter with
      | ok rightTable => cases hinsert
      | error err' =>
          cases Except.error.inj hinsert
          cases err <;> rfl

end Jobs

/-! ## Calls -/

/-- Two effects a caller cannot tell apart by their answers, on tables that look
the same afterwards. -/
structure Alike (tenant : String) (left right : Effect) : Prop where
  next : left.next = right.next
  reply : left.reply = right.reply
  visible : left.table.visible (Owns tenant) = right.table.visible (Owns tenant)

section Calls

variable {tenant : String} {env : Env} {left right : JobTable}
  (hvisible : left.visible (Owns tenant) = right.visible (Owns tenant))
include hvisible

theorem alike_enqueueLookup (htenant : tenant ≠ "") {job : Job} (hjob : job.tenantID = tenant)
    (missed : Option Call) :
    Alike tenant (enqueueLookupEffect left job missed)
      (enqueueLookupEffect right job missed) := by
  have hget := getJobByIdempotencyKey_congr hvisible htenant job.idempotencyKey
  rw [← hjob] at hget
  rw [enqueueLookupEffect, enqueueLookupEffect, hget]
  split
  · exact ⟨rfl, rfl, hvisible⟩
  · split
    · exact ⟨rfl, rfl, hvisible⟩
    · exact ⟨rfl, rfl, hvisible⟩

theorem alike_enqueueInsert {job : Job} (hjob : job.tenantID = tenant) (hid : job.id = "")
    (hleft : ∀ row ∈ left.hidden (Owns tenant), row.id ≠ env.jobID)
    (hright : ∀ row ∈ right.hidden (Owns tenant), row.id ≠ env.jobID) :
    Alike tenant (enqueueInsertEffect env left job) (enqueueInsertEffect env right job) := by
  have hprepared : (prepareJob env job).id = env.jobID := if_pos hid
  rw [← hprepared] at hleft hright
  have hcreate := createJob_congr hvisible env.storeNow
    (show (prepareJob env job).tenantID = tenant from hjob) hleft hright
  simp only [enqueueInsertEffect]
  generalize createJob left env.storeNow (prepareJob env job) = leftAfter at hcreate ⊢
  generalize createJob right env.storeNow (prepareJob env job) = rightAfter at hcreate ⊢
  cases leftAfter with
  | ok leftTable =>
      cases rightAfter with
      | ok rightTable => exact ⟨rfl, rfl, Except.ok.inj hcreate⟩
      | error err => cases hcreate
  | error err =>
      cases rightAfter with
      | ok rightTable => cases hcreate
      | error err' =>
          cases Except.error.inj hcreate
          dsimp only
          split
          · exact ⟨rfl, rfl, hvisible⟩
          · exact ⟨rfl, rfl, hvisible⟩

/-- A call that runs an `UPDATE`, told by the rows it selects. -/
theorem alike_update {call : Call}
    (hstatement : call.statement env left = call.statement env right)
    (haffected : ∀ statement, call.statement env right = some statement →
      left.affected statement.update = right.affected statement.update)
    (hanswer : call.answer env left = call.answer env right) :
    Alike tenant (call.updateEffect env left) (call.updateEffect env right) := by
  rw [Call.updateEffect, Call.updateEffect, hstatement, hanswer]
  split
  · exact ⟨rfl, rfl, hvisible⟩
  · rename_i statement hsome
    have hnext : call.afterStatement left statement = call.afterStatement right statement := by
      unfold Call.afterStatement
      rw [haffected statement hsome]
    dsimp only
    rw [hnext]
    exact ⟨rfl, rfl, visible_exec_congr hvisible statement⟩

end Calls

section Answers

variable {left right : JobTable} {statement : Statement}
  (haffected : left.affected statement.update = right.affected statement.update)
include haffected

theorem execOr_congr (err : StoreError) :
    (execOr left statement err).1 = (execOr right statement err).1 := by
  rw [execOr, execOr, haffected]

theorem execReturning_congr (err : StoreError) :
    (execReturning left statement err).1 = (execReturning right statement err).1 := by
  rw [execReturning, execReturning, haffected]

end Answers

section Makes

variable {tenant : String} {request : Request} {env : Env} {left right : JobTable}

/-- Every call but the read of `Fail` has the same effect on tables that look the
same. -/
theorem Makes.alike {call : Call} (hmakes : Makes tenant request call)
    (hfail : readsToFail call = false) (htenant : tenant ≠ "")
    (hvisible : left.visible (Owns tenant) = right.visible (Owns tenant))
    (hleft : request.PresentsOwn tenant left) (hright : request.PresentsOwn tenant right)
    (hleftID : ∀ row ∈ left.hidden (Owns tenant), row.id ≠ env.jobID)
    (hrightID : ∀ row ∈ right.hidden (Owns tenant), row.id ≠ env.jobID) :
    Alike tenant (call.effect env left) (call.effect env right) := by
  have haffected : ∀ statement, call.statement env left = some statement →
      call.statement env right = some statement →
      left.affected statement.update = right.affected statement.update := by
    intro statement hstatement hstatement'
    apply affected_congr hvisible
    · intro row hrow hselects
      exact hmakes.selects_owned htenant hleft hstatement hrow hselects
    · intro row hrow hselects
      exact hmakes.selects_owned htenant hright hstatement' hrow hselects
  cases hmakes with
  | enqueue body job hjob hid =>
      have hwithTenant := withTenant_of_enqueuedFor htenant hjob
      simp only [Call.effect, hwithTenant]
      split
      · exact alike_enqueueInsert hvisible hjob.tenantID hid hleftID hrightID
      · exact alike_enqueueLookup hvisible htenant hjob.tenantID _
  | enqueueInsert body job hjob hid =>
      exact alike_enqueueInsert hvisible hjob.tenantID hid hleftID hrightID
  | enqueueRelookup body job hjob =>
      exact alike_enqueueLookup hvisible htenant hjob.tenantID _
  | cancelRecheck id | requeueRecheck id =>
      refine ⟨rfl, ?_, hvisible⟩
      simp only [Call.effect, missedWrite, getJob_congr hvisible htenant id]
  | cancel id | requeue id =>
      exact alike_update hvisible rfl (fun statement hstatement =>
        haffected statement hstatement hstatement) rfl
  | claim body leaseDuration filter hfilter =>
      have hstatement := claimNextJobStatement_congr hvisible htenant hfilter env.storeNow
        env.dbNow (newLeaseToken env.random) env.locked leaseDuration
      have hsome : (Call.claimNextJob leaseDuration filter).statement env left =
          (Call.claimNextJob leaseDuration filter).statement env right :=
        congrArg some hstatement
      apply alike_update hvisible hsome
      · intro statement hright
        exact haffected statement (hsome.trans hright) hright
      · simp only [Call.answer, claimNextJob, hstatement]
        rw [execReturning_congr (haffected _ hsome rfl)]
  | heartbeat id body leaseDuration =>
      apply alike_update hvisible rfl fun statement hsome => haffected statement hsome hsome
      simp only [Call.answer, renewLease]
      split
      · rfl
      · rename_i statement hsome
        rw [execOr_congr (haffected statement hsome hsome)]
  | complete id body metadata =>
      apply alike_update hvisible rfl fun statement hsome => haffected statement hsome hsome
      simp only [Call.answer, completeClaimedJob]
      split
      · rfl
      · rename_i statement hsome
        rw [execReturning_congr (haffected statement hsome hsome)]
  | fail id body errMsg permanent => cases hfail
  | failWrite id body errMsg permanent job =>
      apply alike_update hvisible rfl fun statement hsome => haffected statement hsome hsome
      have hwritten : (failClaimedJob left env.dbNow id body.leaseToken errMsg
          (failNextRun env job permanent)).1 =
          (failClaimedJob right env.dbNow id body.leaseToken errMsg
            (failNextRun env job permanent)).1 := by
        simp only [failClaimedJob]
        split
        · rfl
        · rename_i statement hsome
          rw [execOr_congr (haffected statement hsome hsome)]
      simp only [Call.answer, hwritten]

end Makes

/-! ## Turns -/

/-- The rows of the tenant are the same in two databases. -/
structure Agree (tenant : String) (left right : Database) : Prop where
  jobs : left.jobs.visible (Owns tenant) = right.jobs.visible (Owns tenant)
  schedules : left.schedules.visible (OwnsSchedule tenant) =
    right.schedules.visible (OwnsSchedule tenant)

theorem Agree.symm {tenant : String} {left right : Database}
    (hagree : Agree tenant left right) : Agree tenant right left :=
  ⟨hagree.jobs.symm, hagree.schedules.symm⟩

/-- What is assumed of a turn on a database: a lease token presented is on no row
of another tenant, and an id minted is none of theirs. -/
structure Unrelated (tenant : String) (request : Request) (env : Env)
    (database : Database) : Prop where
  presentsOwn : request.PresentsOwn tenant database.jobs
  jobID : ∀ row ∈ database.jobs.hidden (Owns tenant), row.id ≠ env.jobID
  scheduleID : ∀ row ∈ database.schedules.hidden (OwnsSchedule tenant), row.id ≠ env.jobID

/-- Two turns the tenant cannot tell apart. -/
structure TurnsAlike (tenant : String) (left right : Turn) : Prop where
  response : left.response = right.response
  next : left.next = right.next
  agree : Agree tenant left.database right.database

section Turns

variable {context : Context} {env : Env} {left right : Database} {request : Request}
  (hagree : Agree context.tenant left right)
include hagree

theorem alike_answer {leftResponse rightResponse : Response}
    (hresponse : leftResponse = rightResponse) :
    TurnsAlike context.tenant (answer left leftResponse) (answer right rightResponse) :=
  ⟨congrArg some hresponse, rfl, hagree⟩

theorem alike_reject (err : ApiError) :
    TurnsAlike context.tenant (reject context left err) (reject context right err) :=
  alike_answer hagree rfl

theorem alike_runCall {call : Call} (hmakes : Makes context.tenant request call)
    (hfail : readsToFail call = false) (htenant : context.tenant ≠ "")
    (hleft : Unrelated context.tenant request env left)
    (hright : Unrelated context.tenant request env right) :
    TurnsAlike context.tenant (runCall context env left request call)
      (runCall context env right request call) := by
  have halike : Alike context.tenant (call.effect env left.jobs)
      (call.effect env right.jobs) :=
    hmakes.alike hfail htenant hagree.jobs hleft.presentsOwn hright.presentsOwn hleft.jobID
      hright.jobID
  refine ⟨?_, ?_, ⟨halike.visible, hagree.schedules⟩⟩
  · change Option.map _ _ = Option.map _ _
    rw [halike.reply]
  · change Option.map _ _ = Option.map _ _
    rw [halike.next]

theorem alike_attemptClaim (body : ClaimRequest) (deadline : ℤ)
    (htenant : context.tenant ≠ "")
    (hleft : Unrelated context.tenant (.claimJob (.ok body)) env left)
    (hright : Unrelated context.tenant (.claimJob (.ok body)) env right) :
    TurnsAlike context.tenant (attemptClaim context env left body deadline)
      (attemptClaim context env right body deadline) := by
  have hmakes : Makes context.tenant (.claimJob (.ok body)) (body.call context) :=
    .claim (.ok body) _ _ rfl
  have halike : Alike context.tenant ((body.call context).effect env left.jobs)
      ((body.call context).effect env right.jobs) := by
    exact hmakes.alike rfl htenant hagree.jobs hleft.presentsOwn hright.presentsOwn
      hleft.jobID hright.jobID
  simp only [attemptClaim, halike.reply]
  split
  · exact ⟨rfl, rfl, ⟨halike.visible, hagree.schedules⟩⟩
  · exact ⟨rfl, rfl, ⟨halike.visible, hagree.schedules⟩⟩
  · exact ⟨rfl, rfl, ⟨halike.visible, hagree.schedules⟩⟩

theorem alike_listSchedules :
    TurnsAlike context.tenant (listSchedules context left) (listSchedules context right) := by
  apply alike_answer hagree
  have hsame : left.schedules.rows.filter (fun row => row.tenantID = context.tenant) =
      right.schedules.rows.filter fun row => row.tenantID = context.tenant := hagree.schedules
  rw [ScheduleStore.listSchedules, ScheduleStore.listSchedules, hsame]

theorem alike_deleteSchedule (id : String) :
    TurnsAlike context.tenant (deleteSchedule context left id)
      (deleteSchedule context right id) := by
  have hselected : left.schedules.rows.filter
      (fun row => row.id = id ∧ row.tenantID = context.tenant) =
      right.schedules.rows.filter fun row => row.id = id ∧ row.tenantID = context.tenant :=
    Table.filter_congr (fun row _ hselects => hselects.2) (fun row _ hselects => hselects.2)
      hagree.schedules
  refine ⟨?_, rfl, ⟨hagree.jobs, ?_⟩⟩
  · simp only [deleteSchedule, ScheduleStore.deleteSchedule, hselected]
  · change (Table.delete ..).visible _ = (Table.delete ..).visible _
    rw [Table.visible_delete, Table.visible_delete, hagree.schedules]

theorem alike_insertSchedule {sched : Schedule} (htenant : context.tenant ≠ "")
    (howner : sched.tenantID = context.tenant) (hid : sched.id = "")
    (hleft : ∀ row ∈ left.schedules.hidden (OwnsSchedule context.tenant),
      row.id ≠ env.jobID)
    (hright : ∀ row ∈ right.schedules.hidden (OwnsSchedule context.tenant),
      row.id ≠ env.jobID) :
    TurnsAlike context.tenant (insertSchedule context env left sched)
      (insertSchedule context env right sched) := by
  have howns : OwnsSchedule context.tenant
      (scheduleRow (prepareSchedule env.jobID env.storeNow sched)) :=
    tenantID_scheduleRow htenant howner ..
  have hnewID : (scheduleRow (prepareSchedule env.jobID env.storeNow sched)).id = env.jobID :=
    if_pos hid
  have hcompatible : ∀ (table : ScheduleTable),
      ∀ row ∈ table.hidden (OwnsSchedule context.tenant), schedules.Compatible row
        (scheduleRow (prepareSchedule env.jobID env.storeNow sched)) := by
    intro table row hrow
    right
    intro hentry
    simp only [schedules, Option.some.injEq, Prod.mk.injEq] at hentry
    exact (Table.mem_hidden.1 hrow).2 (hentry.1.trans howns)
  rw [← hnewID] at hleft hright
  have hinsert : (left.schedules.insert
        (scheduleRow (prepareSchedule env.jobID env.storeNow sched))).map
          (Table.visible (OwnsSchedule context.tenant)) =
      (right.schedules.insert
        (scheduleRow (prepareSchedule env.jobID env.storeNow sched))).map
          (Table.visible (OwnsSchedule context.tenant)) :=
    Table.insert_congr hleft hright (hcompatible left.schedules)
      (hcompatible right.schedules) howns hagree.schedules
  simp only [insertSchedule, ScheduleStore.createSchedule]
  generalize left.schedules.insert _ = leftAfter at hinsert ⊢
  generalize right.schedules.insert _ = rightAfter at hinsert ⊢
  cases leftAfter with
  | ok leftTable =>
      cases rightAfter with
      | ok rightTable => exact ⟨rfl, rfl, ⟨hagree.jobs, Except.ok.inj hinsert⟩⟩
      | error err => cases hinsert
  | error err =>
      cases rightAfter with
      | ok rightTable => cases hinsert
      | error err' => exact ⟨rfl, rfl, ⟨hagree.jobs, hagree.schedules⟩⟩

theorem alike_createSchedule (body : Except String CreateScheduleRequest)
    (htenant : context.tenant ≠ "")
    (hleft : ∀ row ∈ left.schedules.hidden (OwnsSchedule context.tenant),
      row.id ≠ env.jobID)
    (hright : ∀ row ∈ right.schedules.hidden (OwnsSchedule context.tenant),
      row.id ≠ env.jobID) :
    TurnsAlike context.tenant (createSchedule context env left body)
      (createSchedule context env right body) := by
  cases body with
  | error message => exact alike_reject hagree _
  | ok body =>
      rw [createSchedule, createSchedule]
      split
      · exact alike_reject hagree _
      · split
        · exact alike_reject hagree _
        · split
          · exact alike_reject hagree _
          · split
            · exact alike_reject hagree _
            · dsimp only
              split
              · exact alike_reject hagree _
              · exact alike_insertSchedule hagree htenant rfl rfl hleft hright

theorem alike_withLease {Payload : Type} {token : Payload → String}
    {leftTurn rightTurn : Payload → Turn} {body : Except String Payload}
    (hturn : ∀ payload, body = .ok payload → token payload ≠ "" →
      TurnsAlike context.tenant (leftTurn payload) (rightTurn payload)) :
    TurnsAlike context.tenant (withLease context left token leftTurn body)
      (withLease context right token rightTurn body) := by
  cases body with
  | error message => exact alike_reject hagree _
  | ok payload =>
      rw [withLease, withLease]
      split
      · exact alike_reject hagree _
      · exact hturn payload rfl ‹_›

/-- The first turn of every request that does not report a failure. -/
theorem alike_start (htenant : context.tenant ≠ "")
    (hleft : Unrelated context.tenant request env left)
    (hright : Unrelated context.tenant request env right)
    (hfail : ∀ id body, request = .failJob id (.ok body) → body.leaseToken = "") :
    TurnsAlike context.tenant (request.start context env left)
      (request.start context env right) := by
  cases request with
  | enqueueJob body =>
      cases body with
      | error message => exact alike_reject hagree _
      | ok body =>
          simp only [Request.start, enqueueJob]
          split
          · exact alike_reject hagree _
          · split
            · exact alike_reject hagree _
            · exact alike_runCall hagree (.enqueue _ _ ⟨rfl, rfl⟩ rfl) rfl htenant hleft hright
  | getJobStatus id =>
      apply alike_answer hagree
      rw [getJob_congr hagree.jobs htenant]
  | getJobByIdempotencyKey key =>
      simp only [Request.start, getJobByIdempotencyKey]
      split
      · exact alike_reject hagree _
      · apply alike_answer hagree
        rw [getJobByIdempotencyKey_congr hagree.jobs htenant]
  | listJobs query =>
      simp only [Request.start, listJobs]
      split
      · exact alike_reject hagree _
      · split
        · exact alike_reject hagree _
        · apply alike_answer hagree
          rw [listJobs_congr hagree.jobs htenant _ rfl]
  | cancelJob id =>
      simp only [Request.start, cancelJob, getJob_congr hagree.jobs htenant id]
      split
      · exact ⟨rfl, rfl, hagree⟩
      · exact alike_reject hagree _
      · exact alike_reject hagree _
  | requeueJob id =>
      exact alike_runCall hagree (.requeue id) rfl htenant hleft hright
  | claimJob body =>
      cases body with
      | error message => exact alike_reject hagree _
      | ok body =>
          simp only [Request.start, claimJob]
          split
          · exact alike_reject hagree _
          · exact alike_attemptClaim hagree body _ htenant hleft hright
  | heartbeatJob id body =>
      apply alike_withLease hagree
      rintro payload rfl -
      exact alike_runCall hagree (.heartbeat id payload _) rfl htenant hleft hright
  | completeJob id body =>
      apply alike_withLease hagree
      rintro payload rfl -
      exact alike_runCall hagree (.complete id payload _) rfl htenant hleft hright
  | failJob id body =>
      apply alike_withLease hagree
      rintro payload rfl htoken
      exact absurd (hfail id payload rfl) htoken
  | createSchedule body =>
      exact alike_createSchedule hagree body htenant hleft.scheduleID hright.scheduleID
  | listSchedules => exact alike_listSchedules hagree
  | deleteSchedule id => exact alike_deleteSchedule hagree id

/-- Every later turn. -/
theorem alike_resume {progress : Progress} (htenant : context.tenant ≠ "")
    (hleft : Unrelated context.tenant request env left)
    (hright : Unrelated context.tenant request env right)
    (hprogress : progress.Of context.tenant request) :
    TurnsAlike context.tenant (request.resume context env left progress)
      (request.resume context env right progress) := by
  cases progress with
  | call made => exact alike_runCall hagree hprogress.1 hprogress.2 htenant hleft hright
  | claim body deadline =>
      have hrequest : request = .claimJob (.ok body) := hprogress
      rw [hrequest] at hleft hright
      simp only [Request.resume, claimAgain]
      split
      · exact alike_answer hagree rfl
      · exact alike_attemptClaim hagree body deadline htenant hleft hright

end Turns

end Conduit.Api
