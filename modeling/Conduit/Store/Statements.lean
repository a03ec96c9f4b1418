import Conduit.Core.Relational
import Conduit.Store.Models

/-!
# The statements of the job store

Every method of `PostgresStore` that changes a job does so in one SQL
statement.  `Statement` lists the `UPDATE`s with their parameters, `Selects` is
the `WHERE` clause of each and `set` its `SET` clause.  A claim and the lease
reaper first select the ids they will write in a `WITH` query of the same
statement; those ids are parameters here and computed by the methods below.
-/

namespace Conduit.JobStore

open Models Relational

/-- `id` is the primary key; `jobs_tenant_idempotency_key_idx` covers the rows
that have an idempotency key. -/
def jobs : Schema Row String (String × String) where
  key := Row.id
  index row := row.idempotencyKey.map fun key => (row.tenantID, key)

abbrev JobTable := Table jobs

inductive StoreError
  | jobNotFound
  | invalidTransition
  | duplicateIdempotencyKey
  | leaseLost
  /-- Any other error of the database, such as a repeated primary key. -/
  | database
  deriving DecidableEq

def anyTenant : String := ""

/-- `$n = '' OR tenant_id = $n`. -/
def InTenant (tenant : String) (row : Row) : Prop :=
  tenant = anyTenant ∨ row.tenantID = tenant

instance (tenant : String) (row : Row) : Decidable (InTenant tenant row) :=
  inferInstanceAs (Decidable (_ ∨ _))

inductive Statement
  | claimNextJob (selected : Option String) (now leaseExpiresAt : ℤ)
      (leaseToken : String)
  | updateJob (job : Job) (updatedAt : ℤ)
  | renewLease (id leaseToken : String) (leaseExpiresAt dbNow : ℤ)
  | releaseClaim (id leaseToken reason : String) (nextRun dbNow : ℤ)
  | completeClaimedJob (id leaseToken : String) (metadata : Jsonb) (dbNow : ℤ)
  | failClaimedJob (id leaseToken errMsg : String) (nextRun : Option ℤ)
      (dbNow : ℤ)
  | cancelJob (tenant id : String) (dbNow : ℤ)
  | requeueExpiredRunning (expired : List String) (dbNow : ℤ)
  | requeueDeadJob (tenant id : String) (dbNow : ℤ)

namespace Statement

/-- `id = $i AND state = 'RUNNING' AND lease_token = $t`. -/
def Holds (id leaseToken : String) (row : Row) : Prop :=
  row.id = id ∧ row.state = .running ∧ row.leaseToken = some leaseToken

instance (id leaseToken : String) (row : Row) :
    Decidable (Holds id leaseToken row) :=
  inferInstanceAs (Decidable (_ ∧ _))

/-- The `WHERE` clause. -/
def Selects : Statement → Row → Prop
  | .claimNextJob selected _ _ _, row => selected = some row.id
  | .updateJob job _, row => row.id = job.id ∧
      (job.leaseToken = "" ∨ row.leaseToken = some job.leaseToken ∨
        (row.state = .pending ∧ job.state = .running ∧ row.leaseToken = none))
  | .renewLease id leaseToken _ _, row => Holds id leaseToken row
  | .releaseClaim id leaseToken _ _ _, row => Holds id leaseToken row
  | .completeClaimedJob id leaseToken _ _, row => Holds id leaseToken row
  | .failClaimedJob id leaseToken _ _ _, row => Holds id leaseToken row
  | .cancelJob tenant id _, row => row.id = id ∧ InTenant tenant row ∧
      (row.state = .pending ∨ row.state = .running ∨ row.state = .failed)
  | .requeueExpiredRunning expired _, row => row.id ∈ expired
  | .requeueDeadJob tenant id _, row =>
      row.id = id ∧ row.state = .dead ∧ InTenant tenant row

instance (statement : Statement) : DecidablePred statement.Selects := fun row =>
  match statement with
  | .claimNextJob .. => inferInstanceAs (Decidable (_ = _))
  | .updateJob .. => inferInstanceAs (Decidable (_ ∧ _))
  | .renewLease id leaseToken .. => inferInstanceAs (Decidable (Holds id leaseToken row))
  | .releaseClaim id leaseToken .. => inferInstanceAs (Decidable (Holds id leaseToken row))
  | .completeClaimedJob id leaseToken .. =>
      inferInstanceAs (Decidable (Holds id leaseToken row))
  | .failClaimedJob id leaseToken .. =>
      inferInstanceAs (Decidable (Holds id leaseToken row))
  | .cancelJob .. => inferInstanceAs (Decidable (_ ∧ _))
  | .requeueExpiredRunning .. => inferInstanceAs (Decidable (_ ∈ _))
  | .requeueDeadJob .. => inferInstanceAs (Decidable (_ ∧ _))

/-- The `SET` clause. -/
def set : Statement → Row → Row
  | .claimNextJob _ now leaseExpiresAt leaseToken, row => { row with
      state := .running
      attempt := row.attempt + 1
      startedAt := some (timestamptz now)
      leaseExpiresAt := some (timestamptz leaseExpiresAt)
      leaseToken := some leaseToken
      updatedAt := timestamptz now }
  | .updateJob job updatedAt, row => { row with
      state := job.state
      attempt := job.attempt
      lastError := job.lastError
      scheduledAt := job.scheduledAt.map timestamptz
      startedAt := job.startedAt.map timestamptz
      leaseExpiresAt := job.leaseExpiresAt.map timestamptz
      leaseToken :=
        if job.state = .completed ∨ job.state = .dead ∨ job.state = .pending
        then none else nullableString job.leaseToken
      completedAt := job.completedAt.map timestamptz
      updatedAt := timestamptz updatedAt
      metadata := marshalMap job.metadata
      taskMetadata := marshalMap job.task.metadata
      taskRetryCount := job.task.retryCount }
  | .renewLease _ _ leaseExpiresAt dbNow, row => { row with
      leaseExpiresAt := some (timestamptz leaseExpiresAt)
      updatedAt := timestamptz dbNow }
  | .releaseClaim _ _ reason nextRun dbNow, row => { row with
      state := .pending
      attempt := max (row.attempt - 1) 0
      lastError := reason
      scheduledAt := some (timestamptz nextRun)
      startedAt := none
      leaseExpiresAt := none
      leaseToken := none
      updatedAt := timestamptz dbNow }
  | .completeClaimedJob _ _ metadata dbNow, row => { row with
      state := .completed
      completedAt := some (timestamptz dbNow)
      startedAt := none
      leaseExpiresAt := none
      leaseToken := none
      updatedAt := timestamptz dbNow
      metadata :=
        (if row.metadata.isObject then row.metadata else Jsonb.emptyObject).concat
          metadata }
  | .failClaimedJob _ _ errMsg nextRun dbNow, row => { row with
      state := if nextRun.isSome then .pending else .dead
      lastError := errMsg
      scheduledAt := if nextRun.isSome then nextRun.map timestamptz else row.scheduledAt
      completedAt := if nextRun.isNone then some (timestamptz dbNow) else row.completedAt
      startedAt := none
      leaseExpiresAt := none
      leaseToken := none
      updatedAt := timestamptz dbNow }
  | .cancelJob _ _ dbNow, row => { row with
      state := .dead
      completedAt := some (timestamptz dbNow)
      startedAt := none
      leaseExpiresAt := none
      leaseToken := none
      updatedAt := timestamptz dbNow }
  | .requeueExpiredRunning _ dbNow, row => { row with
      state := if row.taskMaxRetries ≤ row.attempt then .dead else .pending
      lastError := "job lease expired before completion"
      scheduledAt :=
        if row.taskMaxRetries ≤ row.attempt then row.scheduledAt
        else some (timestamptz dbNow)
      completedAt :=
        if row.taskMaxRetries ≤ row.attempt then some (timestamptz dbNow)
        else row.completedAt
      startedAt := none
      leaseExpiresAt := none
      leaseToken := none
      updatedAt := timestamptz dbNow }
  | .requeueDeadJob _ _ dbNow, row => { row with
      state := .pending
      attempt := 0
      taskRetryCount := 0
      scheduledAt := some (timestamptz dbNow)
      startedAt := none
      leaseExpiresAt := none
      leaseToken := none
      completedAt := none
      updatedAt := timestamptz dbNow }

/-- No statement writes the identity of a row: its id, its tenant, its
idempotency key or its retry budget. -/
theorem set_identity (statement : Statement) (row : Row) :
    (statement.set row).id = row.id ∧
      (statement.set row).tenantID = row.tenantID ∧
      (statement.set row).idempotencyKey = row.idempotencyKey ∧
      (statement.set row).taskMaxRetries = row.taskMaxRetries := by
  cases statement <;> exact ⟨rfl, rfl, rfl, rfl⟩

@[simp]
theorem set_id (statement : Statement) (row : Row) :
    (statement.set row).id = row.id :=
  (statement.set_identity row).1

@[simp]
theorem set_tenantID (statement : Statement) (row : Row) :
    (statement.set row).tenantID = row.tenantID :=
  (statement.set_identity row).2.1

@[simp]
theorem set_idempotencyKey (statement : Statement) (row : Row) :
    (statement.set row).idempotencyKey = row.idempotencyKey :=
  (statement.set_identity row).2.2.1

/-- Only three statements leave a row with a lease: a renewal, which keeps the
token, and the two claims. -/
theorem leaseToken_set {statement : Statement} {row : Row} {leaseToken : String}
    (htoken : (statement.set row).leaseToken = some leaseToken) :
    (row.leaseToken = some leaseToken ∧
        ∃ id token expires dbNow, statement = .renewLease id token expires dbNow) ∨
      (∃ selected now expires, statement = .claimNextJob selected now expires leaseToken) ∨
      ∃ job updatedAt, statement = .updateJob job updatedAt ∧
        job.leaseToken = leaseToken := by
  cases statement with
  | claimNextJob selected now expires token =>
      cases htoken
      exact .inr (.inl ⟨selected, now, expires, rfl⟩)
  | updateJob job updatedAt =>
      refine .inr (.inr ⟨job, updatedAt, rfl, ?_⟩)
      simp only [set, nullableString] at htoken
      split at htoken
      · cases htoken
      · split at htoken
        · cases htoken
        · exact Option.some.inj htoken
  | renewLease id token expires dbNow =>
      exact .inl ⟨htoken, id, token, expires, dbNow, rfl⟩
  | _ => cases htoken

def update (statement : Statement) : Update jobs where
  selects := statement.Selects
  decides := inferInstance
  set := statement.set
  key_set := statement.set_id
  index_set row := by simp [jobs]

end Statement

/-! ## Store methods -/

/-- Run a statement; a caller that sees no affected row answers `err`. -/
def execOr (table : JobTable) (statement : Statement) (err : StoreError) :
    Except StoreError Unit × JobTable :=
  (if table.affected statement.update = [] then .error err else .ok (),
    table.exec statement.update)

theorem execOr_cases (table : JobTable) (statement : Statement) (err : StoreError) :
    (∃ row ∈ table.rows, statement.Selects row ∧
      execOr table statement err = (.ok (), table.exec statement.update)) ∨
    (∀ row ∈ table.rows, ¬ statement.Selects row) ∧
      execOr table statement err = (.error err, table) := by
  rw [execOr]
  by_cases hnone : table.affected statement.update = []
  · refine .inr ⟨?_, by rw [if_pos hnone, Table.exec_eq_self hnone]⟩
    intro row hrow hselects
    have hmem : row ∈ table.affected statement.update := Table.mem_affected.2 ⟨hrow, hselects⟩
    rw [hnone] at hmem
    cases hmem
  · obtain ⟨row, hrow⟩ := List.exists_mem_of_ne_nil _ hnone
    obtain ⟨hmem, hselects⟩ := Table.mem_affected.1 hrow
    exact .inl ⟨row, hmem, hselects, by rw [if_neg hnone]⟩

/-- Run a statement with a `RETURNING` clause. -/
def execReturning (table : JobTable) (statement : Statement) (err : StoreError) :
    Except StoreError Job × JobTable :=
  (match table.affected statement.update with
    | [] => .error err
    | row :: _ => .ok (scanJob (statement.set row)),
    table.exec statement.update)

/-- A statement with a `RETURNING` clause answers with a row it left. -/
theorem exists_row_of_execReturning {table : JobTable} {statement : Statement}
    {err : StoreError} {job : Job}
    (hok : (execReturning table statement err).1 = .ok job) :
    ∃ row ∈ table.rows, statement.Selects row ∧ job = scanJob (statement.set row) ∧
      statement.set row ∈ (table.exec statement.update).rows := by
  rw [execReturning] at hok
  dsimp only at hok
  split at hok
  · cases hok
  · rename_i row rest haffected
    obtain ⟨hrow, hselects⟩ :=
      Table.mem_affected.1 (haffected ▸ List.mem_cons_self (a := row) (l := rest))
    refine ⟨row, hrow, hselects, (Except.ok.inj hok).symm, ?_⟩
    rw [Table.mem_exec]
    exact ⟨row, hrow, if_pos hselects⟩

theorem execReturning_of_forall_not {table : JobTable} {statement : Statement}
    (err : StoreError) (hnone : ∀ row ∈ table.rows, ¬ statement.Selects row) :
    execReturning table statement err = (.error err, table) := by
  have haffected : table.affected statement.update = [] := by
    rw [List.eq_nil_iff_forall_not_mem]
    intro row hrow
    exact hnone row (Table.mem_affected.1 hrow).1 (Table.mem_affected.1 hrow).2
  rw [execReturning, haffected, Table.exec_eq_self haffected]

/-- A statement that finds one row by its id answers with that row. -/
theorem execReturning_of_selects {table : JobTable} {statement : Statement}
    (err : StoreError) {row : Row} (hrow : row ∈ table.rows) (hselects : statement.Selects row)
    (honly : ∀ other, statement.Selects other → other.id = row.id) :
    execReturning table statement err =
      (.ok (scanJob (statement.set row)), table.exec statement.update) := by
  have hmem : row ∈ table.affected statement.update := Table.mem_affected.2 ⟨hrow, hselects⟩
  rw [execReturning]
  cases haffected : table.affected statement.update with
  | nil =>
      rw [haffected] at hmem
      cases hmem
  | cons first others =>
      have hfirst : first ∈ table.affected statement.update := by
        rw [haffected]
        exact List.mem_cons_self
      obtain ⟨hfirstRow, hfirstSelects⟩ := Table.mem_affected.1 hfirst
      rw [table.key_unique hfirstRow hrow (honly first hfirstSelects)]

def createJob (table : JobTable) (now : ℤ) (job : Job) :
    Except StoreError JobTable :=
  match table.insert (createRow now job) with
  | .ok table' => .ok table'
  | .error .uniqueIndex => .error .duplicateIdempotencyKey
  | .error .primaryKey => .error .database

theorem createJob_eq_ok {table table' : JobTable} {now : ℤ} {job : Job}
    (hcreate : createJob table now job = .ok table') :
    table.insert (createRow now job) = .ok table' := by
  rw [createJob] at hcreate
  split at hcreate
  · cases hcreate
    assumption
  · cases hcreate
  · cases hcreate

/-- An insert under an id and a key that no row has succeeds. -/
theorem exists_createJob_eq_ok {table : JobTable} (now : ℤ) {job : Job}
    (hid : ∀ row ∈ table.rows, row.id ≠ job.id)
    (hkey : ∀ row ∈ table.rows, row.idempotencyKey = some job.idempotencyKey →
      row.tenantID ≠ job.tenantID) :
    ∃ table', createJob table now job = .ok table' := by
  have hcompatible : ∀ row ∈ table.rows, jobs.Compatible row (createRow now job) := by
    intro row hrow
    rw [Schema.Compatible]
    by_cases hentry : jobs.index row = none
    · exact .inl hentry
    · right
      intro hsame
      rw [hsame] at hentry
      simp only [jobs, createRow, nullableString] at hsame hentry
      split at hentry
      · exact hentry rfl
      · rename_i hnonempty
        rw [if_neg hnonempty, Option.map_some, Option.map_eq_some_iff] at hsame
        obtain ⟨key, hrowKey, hpair⟩ := hsame
        rw [Prod.mk.injEq] at hpair
        rw [hpair.2] at hrowKey
        exact hkey row hrow hrowKey hpair.1
  obtain ⟨table', hinsert⟩ := Table.exists_insert_eq_ok (createRow now job) hid hcompatible
  exact ⟨table', by rw [createJob, hinsert]⟩

def getJob (table : JobTable) (tenant id : String) : Except StoreError Job :=
  match table.rows.find? fun row => row.id = id ∧ InTenant tenant row with
  | some row => .ok (scanJob row)
  | none => .error .jobNotFound

/-- A query for one row answers with a row it selects, or there is none. -/
theorem queryRow_cases {rows : List Row} {Selected : Row → Prop} [DecidablePred Selected]
    {answer : Except StoreError Job}
    (hanswer : (match rows.find? fun row => Selected row with
      | some row => .ok (scanJob row)
      | none => .error .jobNotFound) = answer) :
    (∃ row ∈ rows, Selected row ∧ answer = .ok (scanJob row)) ∨
      answer = .error .jobNotFound ∧ ∀ row ∈ rows, ¬ Selected row := by
  subst hanswer
  split
  · rename_i row hfind
    have hselected := List.find?_some hfind
    exact .inl ⟨row, List.mem_of_find?_eq_some hfind, of_decide_eq_true hselected, rfl⟩
  · rename_i hfind
    refine .inr ⟨rfl, fun row hrow => ?_⟩
    simpa only [decide_eq_true_eq] using List.find?_eq_none.1 hfind row hrow

theorem getJob_eq_ok {table : JobTable} {tenant id : String} {job : Job}
    (hget : getJob table tenant id = .ok job) :
    ∃ row ∈ table.rows, row.id = id ∧ InTenant tenant row ∧ job = scanJob row := by
  rcases queryRow_cases hget with ⟨row, hrow, ⟨hid, htenant⟩, hok⟩ | ⟨herror, -⟩
  · exact ⟨row, hrow, hid, htenant, Except.ok.inj hok⟩
  · cases herror

theorem getJob_eq_error {table : JobTable} {tenant id : String} {err : StoreError}
    (hget : getJob table tenant id = .error err) :
    err = .jobNotFound ∧ ∀ row ∈ table.rows, row.id = id → ¬ InTenant tenant row := by
  rcases queryRow_cases hget with ⟨row, -, -, hok⟩ | ⟨herror, hnone⟩
  · cases hok
  · exact ⟨Except.error.inj herror, fun row hrow hid htenant => hnone row hrow ⟨hid, htenant⟩⟩

theorem getJob_of_mem {table : JobTable} {row : Row} (hrow : row ∈ table.rows)
    {tenant : String} (htenant : InTenant tenant row) :
    getJob table tenant row.id = .ok (scanJob row) := by
  rcases hget : getJob table tenant row.id with err | job
  · exact absurd htenant ((getJob_eq_error hget).2 row hrow rfl)
  · obtain ⟨found, hfound, hid, -, rfl⟩ := getJob_eq_ok hget
    rw [table.key_unique hfound hrow hid]

theorem getJob_anyTenant {table : JobTable} {row : Row} (hrow : row ∈ table.rows) :
    getJob table anyTenant row.id = .ok (scanJob row) :=
  getJob_of_mem hrow (.inl rfl)

theorem getJob_absent {table : JobTable} {tenant id : String}
    (habsent : ∀ row ∈ table.rows, row.id ≠ id) :
    getJob table tenant id = .error .jobNotFound := by
  rcases hget : getJob table tenant id with err | job
  · rw [(getJob_eq_error hget).1]
  · obtain ⟨found, hfound, hid, -⟩ := getJob_eq_ok hget
    exact absurd hid (habsent found hfound)

def getJobByIdempotencyKey (table : JobTable) (tenant key : String) :
    Except StoreError Job :=
  match table.rows.find? fun row =>
      row.idempotencyKey = some key ∧ InTenant tenant row with
  | some row => .ok (scanJob row)
  | none => .error .jobNotFound

theorem getJobByIdempotencyKey_eq_ok {table : JobTable} {tenant key : String} {job : Job}
    (hget : getJobByIdempotencyKey table tenant key = .ok job) :
    ∃ row ∈ table.rows, row.idempotencyKey = some key ∧ InTenant tenant row ∧
      job = scanJob row := by
  rcases queryRow_cases hget with ⟨row, hrow, ⟨hkey, htenant⟩, hok⟩ | ⟨herror, -⟩
  · exact ⟨row, hrow, hkey, htenant, Except.ok.inj hok⟩
  · cases herror

theorem getJobByIdempotencyKey_eq_error {table : JobTable} {tenant key : String}
    {err : StoreError} (hget : getJobByIdempotencyKey table tenant key = .error err) :
    err = .jobNotFound ∧
      ∀ row ∈ table.rows, row.idempotencyKey = some key → ¬ InTenant tenant row := by
  rcases queryRow_cases hget with ⟨row, -, -, hok⟩ | ⟨herror, hnone⟩
  · cases hok
  · exact ⟨Except.error.inj herror, fun row hrow hkey htenant => hnone row hrow ⟨hkey, htenant⟩⟩

/-- A key that one row has within a tenant finds that row. -/
theorem getJobByIdempotencyKey_of_mem {table : JobTable} {row : Row} (hrow : row ∈ table.rows)
    {tenant key : String} (hkey : row.idempotencyKey = some key) (htenant : InTenant tenant row)
    (honly : ∀ other ∈ table.rows, other.idempotencyKey = some key → InTenant tenant other →
      other = row) :
    getJobByIdempotencyKey table tenant key = .ok (scanJob row) := by
  rcases hget : getJobByIdempotencyKey table tenant key with err | job
  · exact absurd htenant ((getJobByIdempotencyKey_eq_error hget).2 row hrow hkey)
  · obtain ⟨found, hfound, hfoundKey, hfoundTenant, rfl⟩ := getJobByIdempotencyKey_eq_ok hget
    rw [honly found hfound hfoundKey hfoundTenant]

/-- `CanTransition`. -/
def canTransition (source target : JobState) : Bool :=
  if source = .completed ∨ source = .dead then false
  else match source with
    | .pending => target = .running ∨ target = .dead
    | .running => target = .completed ∨ target = .failed ∨ target = .dead
    | .failed => target = .pending ∨ target = .dead
    | _ => false

/-- The read of `UpdateJob` and its verdict on the transition. -/
def updateJobRead (table : JobTable) (job : Job) : Except StoreError Unit :=
  match getJob table anyTenant job.id with
  | .error err => .error err
  | .ok existing =>
      if canTransition existing.state job.state then .ok ()
      else .error .invalidTransition

/-- The write of `UpdateJob`, `now` being its own clock reading. -/
def updateJobWrite (table : JobTable) (now : ℤ) (job : Job) :
    Except StoreError Unit × JobTable :=
  execOr table (.updateJob job now) .invalidTransition

structure ClaimFilter where
  tenant : String
  queues : List String
  names : List String
  deriving DecidableEq

/-- The `WHERE` clause of the claim query.  `locked` are the rows another
transaction holds at that moment, which `SKIP LOCKED` passes over. -/
def Claimable (dbNow : ℤ) (filter : ClaimFilter) (locked : String → Bool)
    (row : Row) : Prop :=
  row.state = .pending ∧
    (∀ scheduledAt ∈ row.scheduledAt, scheduledAt ≤ timestamptz dbNow) ∧
    (filter.queues = [] ∨ row.taskQueue ∈ filter.queues) ∧
    InTenant filter.tenant row ∧
    (filter.names = [] ∨ row.taskName ∈ filter.names) ∧
    locked row.id = false

instance (dbNow : ℤ) (filter : ClaimFilter) (locked : String → Bool) :
    DecidablePred (Claimable dbNow filter locked) := fun _ =>
  inferInstanceAs (Decidable (_ ∧ _))

/-- `ASC NULLS LAST`. -/
def ascNullsLast : Option ℤ → Option ℤ → Bool
  | some left, some right => left ≤ right
  | none, some _ => false
  | _, none => true

theorem ascNullsLast_total (left right : Option ℤ) :
    ascNullsLast left right = true ∨ ascNullsLast right left = true := by
  cases left <;> cases right <;> simp [ascNullsLast, le_total]

theorem ascNullsLast_trans {left middle right : Option ℤ}
    (hleft : ascNullsLast left middle = true) (hright : ascNullsLast middle right = true) :
    ascNullsLast left right = true := by
  cases left <;> cases middle <;> cases right <;> simp_all [ascNullsLast]
  exact hleft.trans hright

/-- `ORDER BY task_priority DESC, scheduled_at ASC NULLS LAST`. -/
def claimBefore (left right : Row) : Prop :=
  right.taskPriority < left.taskPriority ∨
    (left.taskPriority = right.taskPriority ∧
      ascNullsLast left.scheduledAt right.scheduledAt = true)

instance : DecidableRel claimBefore := fun _ _ =>
  inferInstanceAs (Decidable (_ ∨ _))

instance : Std.Total claimBefore where
  total left right := by
    unfold claimBefore
    rcases lt_trichotomy left.taskPriority right.taskPriority with hless | hsame | hmore
    · exact .inr (.inl hless)
    · exact (ascNullsLast_total left.scheduledAt right.scheduledAt).imp
        (fun hbefore => .inr ⟨hsame, hbefore⟩) fun hbefore => .inr ⟨hsame.symm, hbefore⟩
    · exact .inl (.inl hmore)

instance : IsTrans Row claimBefore where
  trans left middle right := by
    rintro (hleft | ⟨hleft, hleftTime⟩) (hright | ⟨hright, hrightTime⟩)
    · exact .inl (hright.trans hleft)
    · exact .inl (hright ▸ hleft)
    · exact .inl (hleft ▸ hright)
    · exact .inr ⟨hleft.trans hright, ascNullsLast_trans hleftTime hrightTime⟩

def claimNextJobStatement (table : JobTable) (now dbNow : ℤ)
    (leaseToken : String) (locked : String → Bool) (leaseDuration : ℤ)
    (filter : ClaimFilter) : Statement :=
  .claimNextJob
    ((selectOrdered claimBefore (Claimable dbNow filter locked) 1
      table.rows).head?.map Row.id)
    now (now + leaseDuration) leaseToken

/-- A claim writes a row its query found claimable. -/
theorem claimable_of_selects {table : JobTable} {now dbNow : ℤ}
    {leaseToken : String} {locked : String → Bool} {leaseDuration : ℤ}
    {filter : ClaimFilter} {row : Row} (hrow : row ∈ table.rows)
    (hselects : (claimNextJobStatement table now dbNow leaseToken locked leaseDuration
      filter).Selects row) : Claimable dbNow filter locked row := by
  obtain ⟨selected, hselected, hid⟩ := Option.map_eq_some_iff.1 hselects
  obtain ⟨hmem, hclaimable⟩ := mem_selectOrdered (List.mem_of_head? hselected)
  rw [← table.key_unique hmem hrow hid]
  exact hclaimable

def claimNextJob (table : JobTable) (now dbNow : ℤ) (leaseToken : String)
    (locked : String → Bool) (leaseDuration : ℤ) (filter : ClaimFilter) :
    Except StoreError Job × JobTable :=
  execReturning table
    (claimNextJobStatement table now dbNow leaseToken locked leaseDuration filter)
    .jobNotFound

/-- `RenewLease`, `CompleteClaimedJob` and `FailClaimedJob` refuse an empty
token before they reach the database. -/
def withToken (leaseToken : String) (statement : Statement) : Option Statement :=
  if leaseToken = "" then none else some statement

def renewLeaseStatement (now dbNow : ℤ) (id leaseToken : String)
    (leaseDuration : ℤ) : Option Statement :=
  withToken leaseToken (.renewLease id leaseToken (now + leaseDuration) dbNow)

def renewLease (table : JobTable) (now dbNow : ℤ) (id leaseToken : String)
    (leaseDuration : ℤ) : Except StoreError Unit × JobTable :=
  match renewLeaseStatement now dbNow id leaseToken leaseDuration with
  | none => (.error .invalidTransition, table)
  | some statement => execOr table statement .invalidTransition

def releaseClaim (table : JobTable) (now dbNow : ℤ)
    (id leaseToken reason : String) (retryAfter : ℤ) :
    Except StoreError Unit × JobTable :=
  execOr table (.releaseClaim id leaseToken reason (now + retryAfter) dbNow)
    .invalidTransition

/-- A nil or empty result is sent as the empty object. -/
def completeClaimedJobStatement (dbNow : ℤ) (id leaseToken : String)
    (metadata : Option StringMap) : Option Statement :=
  withToken leaseToken
    (.completeClaimedJob id leaseToken (.item (.object (metadata.getD ∅))) dbNow)

def completeClaimedJob (table : JobTable) (dbNow : ℤ) (id leaseToken : String)
    (metadata : Option StringMap) : Except StoreError Job × JobTable :=
  match completeClaimedJobStatement dbNow id leaseToken metadata with
  | none => (.error .invalidTransition, table)
  | some statement => execReturning table statement .leaseLost

def failClaimedJobStatement (dbNow : ℤ) (id leaseToken errMsg : String)
    (nextRun : Option ℤ) : Option Statement :=
  withToken leaseToken (.failClaimedJob id leaseToken errMsg nextRun dbNow)

def failClaimedJob (table : JobTable) (dbNow : ℤ)
    (id leaseToken errMsg : String) (nextRun : Option ℤ) :
    Except StoreError Unit × JobTable :=
  match failClaimedJobStatement dbNow id leaseToken errMsg nextRun with
  | none => (.error .invalidTransition, table)
  | some statement => execOr table statement .leaseLost

/-- `CancelJob` and `RequeueDeadJob` answer a write that selected no row by
reading it: an absent job and one in the wrong state are different errors. -/
def missedWrite (table : JobTable) (tenant id : String) : StoreError :=
  match getJob table tenant id with
  | .error err => err
  | .ok _ => .invalidTransition

/-- The `WHERE` clause of the lease reaper's query. -/
def LeaseExpired (dbNow : ℤ) (locked : String → Bool) (row : Row) : Prop :=
  row.state = .running ∧
    (∃ expires ∈ row.leaseExpiresAt, expires ≤ timestamptz dbNow) ∧
    locked row.id = false

instance (dbNow : ℤ) (locked : String → Bool) :
    DecidablePred (LeaseExpired dbNow locked) := fun _ =>
  inferInstanceAs (Decidable (_ ∧ _))

def leaseExpiresBefore (left right : Row) : Prop :=
  ascNullsLast left.leaseExpiresAt right.leaseExpiresAt = true

instance : DecidableRel leaseExpiresBefore := fun _ _ =>
  inferInstanceAs (Decidable (_ = _))

def requeueExpiredRunningStatement (table : JobTable) (dbNow : ℤ)
    (locked : String → Bool) (limit : ℤ) : Option Statement :=
  if limit ≤ 0 then none
  else some (.requeueExpiredRunning
    ((selectOrdered leaseExpiresBefore (LeaseExpired dbNow locked) limit.toNat
      table.rows).map Row.id) dbNow)

/-- The reaper writes rows its query found expired. -/
theorem leaseExpired_of_selects {table : JobTable} {dbNow : ℤ}
    {locked : String → Bool} {limit : ℤ} {statement : Statement} {row : Row}
    (hstatement : requeueExpiredRunningStatement table dbNow locked limit =
      some statement)
    (hrow : row ∈ table.rows) (hselects : statement.Selects row) :
    LeaseExpired dbNow locked row := by
  rw [requeueExpiredRunningStatement] at hstatement
  split at hstatement
  · cases hstatement
  · cases hstatement
    have hexpired := (table.key_mem_map_iff
      (fun expired hmem => (mem_selectOrdered hmem).1) hrow).1 hselects
    exact (mem_selectOrdered hexpired).2

def requeueExpiredRunning (table : JobTable) (dbNow : ℤ)
    (locked : String → Bool) (limit : ℤ) : ℕ × JobTable :=
  match requeueExpiredRunningStatement table dbNow locked limit with
  | none => (0, table)
  | some statement =>
      ((table.affected statement.update).length, table.exec statement.update)

/-- The `WHERE` clause of the retention query. -/
def FinishedBefore (state : JobState) (before : ℤ) (row : Row) : Prop :=
  row.state = state ∧
    ∃ completedAt ∈ row.completedAt, completedAt < timestamptz before

instance (state : JobState) (before : ℤ) :
    DecidablePred (FinishedBefore state before) := fun _ =>
  inferInstanceAs (Decidable (_ ∧ _))

def completedBefore (left right : Row) : Prop :=
  ascNullsLast left.completedAt right.completedAt = true

instance : DecidableRel completedBefore := fun _ _ =>
  inferInstanceAs (Decidable (_ = _))

instance : Std.Total completedBefore where
  total left right := ascNullsLast_total left.completedAt right.completedAt

instance : IsTrans Row completedBefore where
  trans _ _ _ := ascNullsLast_trans

/-- The inner `SELECT` of `DeleteFinished`: the ids its `DELETE` will remove. -/
def deleteFinishedSelect (table : JobTable) (state : JobState) (before limit : ℤ) :
    Except StoreError (List String) :=
  if state ≠ .completed ∧ state ≠ .dead then .error .database
  else if limit ≤ 0 then .ok []
  else .ok ((selectOrdered completedBefore (FinishedBefore state before) limit.toNat
    table.rows).map Row.id)

/-- The outer `DELETE` of `DeleteFinished`. -/
def deleteFinishedExec (table : JobTable) (ids : List String) : ℕ × JobTable :=
  ((table.rows.filter fun row => row.id ∈ ids).length,
    table.delete fun row => row.id ∈ ids)

end Conduit.JobStore
