import Conduit.Store.Models

/-!
# Columns and positions

The statements of the store name 24 columns and leave it to the positions of their arguments
and of the targets of `Scan` which value goes where.  `createRow` and `scanJob` speak of fields
instead.  This file writes the lists of the statements down as they are and shows that the two
agree.
-/

namespace Conduit.Columns

open Models

inductive Column
  | id | idempotencyKey | taskID | taskName | taskPayload
  | taskRetryCount | taskMaxRetries | taskTimeoutNs
  | taskCronExpr | taskQueue | taskMetadata
  | state | attempt | lastError
  | scheduledAt | startedAt | leaseExpiresAt | leaseToken | completedAt
  | createdAt | updatedAt | metadata | tenantID | taskPriority
  deriving DecidableEq

/-- A value of a column. -/
inductive Datum
  | null
  | text (value : String)
  | bytes (value : List UInt8)
  | integer (value : ℤ)
  | instant (value : ℤ)
  | state (value : JobState)
  | jsonb (value : Jsonb)
  deriving DecidableEq

namespace Datum

def ofText (value : Option String) : Datum :=
  value.elim .null .text

def ofBytes (value : Option (List UInt8)) : Datum :=
  value.elim .null .bytes

def ofInstant (value : Option ℤ) : Datum :=
  value.elim .null .instant

/-- Scan into a `*string`. -/
def toText : Datum → Option (Option String)
  | .null => some none
  | .text value => some (some value)
  | _ => none

/-- Scan into a `[]byte`. -/
def toBytes : Datum → Option (Option (List UInt8))
  | .null => some none
  | .bytes value => some (some value)
  | _ => none

/-- Scan into a `*time.Time`. -/
def toInstant : Datum → Option (Option ℤ)
  | .null => some none
  | .instant value => some (some value)
  | _ => none

@[simp]
theorem toText_ofText (value : Option String) : (ofText value).toText = some value := by
  cases value <;> rfl

@[simp]
theorem toBytes_ofBytes (value : Option (List UInt8)) : (ofBytes value).toBytes = some value := by
  cases value <;> rfl

@[simp]
theorem toInstant_ofInstant (value : Option ℤ) : (ofInstant value).toInstant = some value := by
  cases value <;> rfl

end Datum

/-- What a row has in a column. -/
def datum (row : Row) : Column → Datum
  | .id => .text row.id
  | .idempotencyKey => .ofText row.idempotencyKey
  | .taskID => .text row.taskID
  | .taskName => .text row.taskName
  | .taskPayload => .ofBytes row.taskPayload
  | .taskRetryCount => .integer row.taskRetryCount
  | .taskMaxRetries => .integer row.taskMaxRetries
  | .taskTimeoutNs => .integer row.taskTimeoutNs
  | .taskCronExpr => .text row.taskCronExpr
  | .taskQueue => .text row.taskQueue
  | .taskMetadata => .jsonb row.taskMetadata
  | .state => .state row.state
  | .attempt => .integer row.attempt
  | .lastError => .text row.lastError
  | .scheduledAt => .ofInstant row.scheduledAt
  | .startedAt => .ofInstant row.startedAt
  | .leaseExpiresAt => .ofInstant row.leaseExpiresAt
  | .leaseToken => .ofText row.leaseToken
  | .completedAt => .ofInstant row.completedAt
  | .createdAt => .instant row.createdAt
  | .updatedAt => .instant row.updatedAt
  | .metadata => .jsonb row.metadata
  | .tenantID => .text row.tenantID
  | .taskPriority => .integer row.taskPriority

/-! ## Writing -/

/-- The column list of the `INSERT`. -/
def insertColumns : List Column :=
  [.id, .idempotencyKey, .taskID, .taskName, .taskPayload,
    .taskRetryCount, .taskMaxRetries, .taskTimeoutNs,
    .taskCronExpr, .taskQueue, .taskMetadata,
    .state, .attempt, .lastError,
    .scheduledAt, .startedAt, .leaseExpiresAt, .leaseToken, .completedAt,
    .createdAt, .updatedAt, .metadata, .tenantID, .taskPriority]

/-- The arguments of `Exec` in `CreateJob`, as pgx sends them. -/
def insertArguments (now : ℤ) (job : Job) : List Datum :=
  [.text job.id,
    .ofText (nullableString job.idempotencyKey),
    .text job.task.id,
    .text job.task.name,
    .ofBytes job.task.payload,
    .integer job.task.retryCount,
    .integer job.task.maxRetries,
    .integer job.task.timeout,
    .text job.task.cronExpression,
    .text job.task.queue,
    .jsonb (marshalMap job.task.metadata),
    .state job.state,
    .integer job.attempt,
    .text job.lastError,
    .ofInstant (job.scheduledAt.map timestamptz),
    .ofInstant (job.startedAt.map timestamptz),
    .ofInstant (job.leaseExpiresAt.map timestamptz),
    .ofText (nullableString job.leaseToken),
    .ofInstant (job.completedAt.map timestamptz),
    .instant (timestamptz (if job.createdAt = zeroTime then now else job.createdAt)),
    .instant (timestamptz now),
    .jsonb (marshalMap job.metadata),
    .text job.tenantID,
    .integer job.task.priority]

/-- Every column is written, with the argument in its place. -/
theorem insertArguments_eq (now : ℤ) (job : Job) :
    (∀ column, column ∈ insertColumns) ∧
      insertArguments now job = insertColumns.map (datum (createRow now job)) := by
  constructor
  · intro column
    cases column <;> decide
  · rfl

/-! ## Reading -/

/-- The statements that return whole rows. -/
inductive Query
  | getJob
  | getJobByIdempotencyKey
  | claimNextJob
  | completeClaimedJob
  | listJobs

/-- The column lists of these statements. -/
def Query.columns : Query → List Column
  | .getJob =>
      [.id, .idempotencyKey, .taskID, .taskName, .taskPayload,
        .taskRetryCount, .taskMaxRetries, .taskTimeoutNs,
        .taskCronExpr, .taskQueue, .taskMetadata,
        .state, .attempt, .lastError,
        .scheduledAt, .startedAt, .leaseExpiresAt, .leaseToken, .completedAt,
        .createdAt, .updatedAt, .metadata, .tenantID, .taskPriority]
  | .getJobByIdempotencyKey =>
      [.id, .idempotencyKey, .taskID, .taskName, .taskPayload,
        .taskRetryCount, .taskMaxRetries, .taskTimeoutNs,
        .taskCronExpr, .taskQueue, .taskMetadata,
        .state, .attempt, .lastError,
        .scheduledAt, .startedAt, .leaseExpiresAt, .leaseToken, .completedAt,
        .createdAt, .updatedAt, .metadata, .tenantID, .taskPriority]
  | .claimNextJob =>
      [.id, .idempotencyKey, .taskID, .taskName, .taskPayload,
        .taskRetryCount, .taskMaxRetries, .taskTimeoutNs,
        .taskCronExpr, .taskQueue, .taskMetadata,
        .state, .attempt, .lastError,
        .scheduledAt, .startedAt, .leaseExpiresAt, .leaseToken, .completedAt,
        .createdAt, .updatedAt, .metadata, .tenantID, .taskPriority]
  | .completeClaimedJob =>
      [.id, .idempotencyKey, .taskID, .taskName, .taskPayload,
        .taskRetryCount, .taskMaxRetries, .taskTimeoutNs,
        .taskCronExpr, .taskQueue, .taskMetadata,
        .state, .attempt, .lastError,
        .scheduledAt, .startedAt, .leaseExpiresAt, .leaseToken, .completedAt,
        .createdAt, .updatedAt, .metadata, .tenantID, .taskPriority]
  | .listJobs =>
      [.id, .idempotencyKey, .taskID, .taskName, .taskPayload,
        .taskRetryCount, .taskMaxRetries, .taskTimeoutNs,
        .taskCronExpr, .taskQueue, .taskMetadata,
        .state, .attempt, .lastError,
        .scheduledAt, .startedAt, .leaseExpiresAt, .leaseToken, .completedAt,
        .createdAt, .updatedAt, .metadata, .tenantID, .taskPriority]

/-- `Scan` with the targets of `scanJob`; a value that does not fit its target is an error. -/
def scan : List Datum → Option Job
  | [.text id, idempotencyKey, .text taskID, .text taskName, payload,
      .integer retryCount, .integer maxRetries, .integer timeoutNS,
      .text cronExpression, .text queue, .jsonb taskMetaJSON,
      .state state, .integer attempt, .text lastError,
      scheduledAt, startedAt, leaseExpiresAt, leaseToken, completedAt,
      .instant createdAt, .instant updatedAt, .jsonb metaJSON, .text tenantID,
      .integer priority] => do
      let idempotencyKey ← idempotencyKey.toText
      let payload ← payload.toBytes
      let scheduledAt ← scheduledAt.toInstant
      let startedAt ← startedAt.toInstant
      let leaseExpiresAt ← leaseExpiresAt.toInstant
      let leaseToken ← leaseToken.toText
      let completedAt ← completedAt.toInstant
      return {
        id, tenantID
        idempotencyKey := idempotencyKey.getD ""
        task := {
          id := taskID, name := taskName, payload, retryCount, maxRetries
          timeout := timeoutNS, cronExpression, queue
          metadata := unmarshalMap taskMetaJSON, priority }
        state, attempt, scheduledAt, startedAt, leaseExpiresAt
        leaseToken := leaseToken.getD ""
        completedAt, lastError
        metadata := unmarshalMap metaJSON, createdAt, updatedAt }
  | _ => none

/-- Each of the statements returns its columns in the order in which `scanJob` reads them. -/
theorem scan_columns (query : Query) (row : Row) :
    scan (query.columns.map (datum row)) = some (scanJob row) := by
  have hcolumns : query.columns = insertColumns := by cases query <;> rfl
  rw [hcolumns]
  simp [insertColumns, datum, scan, scanJob]

end Conduit.Columns
