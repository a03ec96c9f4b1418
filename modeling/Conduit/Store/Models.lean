import Mathlib.Data.Finmap

/-!
# Jobs and job rows

`Job` is the Go value of `pkg/models`, `Row` one row of the `jobs` table.  They
differ where the database does: an unset idempotency key or lease token is
`NULL`, metadata is `jsonb`, and every instant is kept to the microsecond.

An instant is the integer number of nanoseconds since 0001-01-01 00:00 UTC, the
zero value of Go's `time.Time`, and a duration is a number of nanoseconds.
-/

namespace Conduit.Models

/-- The zero value of Go's `time.Time`. -/
def zeroTime : ℤ := 0

def second : ℤ := 1000000000

def minute : ℤ := 60 * second

def hour : ℤ := 60 * minute

/-- pgx sends a `timestamptz` as whole microseconds, rounded down. -/
def timestamptz (instant : ℤ) : ℤ :=
  instant / 1000 * 1000

theorem timestamptz_le (instant : ℤ) : timestamptz instant ≤ instant := by
  unfold timestamptz
  omega

@[simp]
theorem timestamptz_timestamptz (instant : ℤ) :
    timestamptz (timestamptz instant) = timestamptz instant := by
  unfold timestamptz
  omega

/-- Go's `map[string]string`; a nil map is `none` of an `Option`. -/
abbrev StringMap := Finmap fun _ : String => String

/-- `models.JobState`; `unset` is its zero value, the empty string. -/
inductive JobState
  | unset
  | pending
  | running
  | completed
  | failed
  | dead
  deriving DecidableEq

structure Task where
  id : String
  name : String
  payload : Option (List UInt8)
  retryCount : ℤ
  maxRetries : ℤ
  timeout : ℤ
  cronExpression : String
  queue : String
  metadata : Option StringMap
  priority : ℤ
  deriving DecidableEq

structure Job where
  id : String
  tenantID : String
  idempotencyKey : String
  task : Task
  state : JobState
  attempt : ℤ
  scheduledAt : Option ℤ
  startedAt : Option ℤ
  leaseExpiresAt : Option ℤ
  leaseToken : String
  completedAt : Option ℤ
  lastError : String
  metadata : Option StringMap
  createdAt : ℤ
  updatedAt : ℤ
  deriving DecidableEq

def defaultQueue : String := "default"

def defaultTenant : String := "default"

/-! ## jsonb -/

/-- The `jsonb` values an array in a metadata column could hold. -/
inductive JsonItem
  | null
  | object (fields : StringMap)
  deriving DecidableEq

inductive Jsonb
  | item (value : JsonItem)
  | array (items : List JsonItem)
  deriving DecidableEq

namespace Jsonb

def emptyObject : Jsonb := .item (.object ∅)

def items : Jsonb → List JsonItem
  | .item value => [value]
  | .array values => values

/-- `jsonb_typeof(value) = 'object'`. -/
def isObject : Jsonb → Bool
  | .item (.object _) => true
  | _ => false

/-- The `||` operator: two objects merge key by key, the right one winning;
anything else is concatenated as arrays. -/
def concat : Jsonb → Jsonb → Jsonb
  | .item (.object left), .item (.object right) => .item (.object (right ∪ left))
  | left, right => .array (left.items ++ right.items)

end Jsonb

/-- `json.Marshal` of a `map[string]string`: a nil map is JSON null. -/
def marshalMap : Option StringMap → Jsonb
  | none => .item .null
  | some fields => .item (.object fields)

/-- `json.Unmarshal` into a nil `map[string]string`.  Null leaves it nil, and
so does an array, whose decoding error `scanJob` only logs. -/
def unmarshalMap : Jsonb → Option StringMap
  | .item (.object fields) => some fields
  | _ => none

@[simp]
theorem unmarshalMap_marshalMap (fields : Option StringMap) :
    unmarshalMap (marshalMap fields) = fields := by
  cases fields <;> rfl

/-! ## Rows -/

/-- The columns of the `jobs` table. -/
structure Row where
  id : String
  idempotencyKey : Option String
  taskID : String
  taskName : String
  taskPayload : Option (List UInt8)
  taskRetryCount : ℤ
  taskMaxRetries : ℤ
  taskTimeoutNs : ℤ
  taskCronExpr : String
  taskQueue : String
  taskMetadata : Jsonb
  state : JobState
  attempt : ℤ
  lastError : String
  scheduledAt : Option ℤ
  startedAt : Option ℤ
  leaseExpiresAt : Option ℤ
  leaseToken : Option String
  completedAt : Option ℤ
  createdAt : ℤ
  updatedAt : ℤ
  metadata : Jsonb
  tenantID : String
  taskPriority : ℤ
  deriving DecidableEq

def nullableString (value : String) : Option String :=
  if value = "" then none else some value

/-- The row `CreateJob` inserts, `now` being its own clock reading. -/
def createRow (now : ℤ) (job : Job) : Row where
  id := job.id
  idempotencyKey := nullableString job.idempotencyKey
  taskID := job.task.id
  taskName := job.task.name
  taskPayload := job.task.payload
  taskRetryCount := job.task.retryCount
  taskMaxRetries := job.task.maxRetries
  taskTimeoutNs := job.task.timeout
  taskCronExpr := job.task.cronExpression
  taskQueue := job.task.queue
  taskMetadata := marshalMap job.task.metadata
  state := job.state
  attempt := job.attempt
  lastError := job.lastError
  scheduledAt := job.scheduledAt.map timestamptz
  startedAt := job.startedAt.map timestamptz
  leaseExpiresAt := job.leaseExpiresAt.map timestamptz
  leaseToken := nullableString job.leaseToken
  completedAt := job.completedAt.map timestamptz
  createdAt := timestamptz (if job.createdAt = zeroTime then now else job.createdAt)
  updatedAt := timestamptz now
  metadata := marshalMap job.metadata
  tenantID := job.tenantID
  taskPriority := job.task.priority

/-- `scanJob`: a row read back as the Go value. -/
def scanJob (row : Row) : Job where
  id := row.id
  tenantID := row.tenantID
  idempotencyKey := row.idempotencyKey.getD ""
  task := {
    id := row.taskID
    name := row.taskName
    payload := row.taskPayload
    retryCount := row.taskRetryCount
    maxRetries := row.taskMaxRetries
    timeout := row.taskTimeoutNs
    cronExpression := row.taskCronExpr
    queue := row.taskQueue
    metadata := unmarshalMap row.taskMetadata
    priority := row.taskPriority }
  state := row.state
  attempt := row.attempt
  scheduledAt := row.scheduledAt
  startedAt := row.startedAt
  leaseExpiresAt := row.leaseExpiresAt
  leaseToken := row.leaseToken.getD ""
  completedAt := row.completedAt
  lastError := row.lastError
  metadata := unmarshalMap row.metadata
  createdAt := row.createdAt
  updatedAt := row.updatedAt

@[simp]
theorem nullableString_of_ne {value : String} (hvalue : value ≠ "") :
    nullableString value = some value :=
  if_neg hvalue

@[simp]
theorem nullableString_empty : nullableString "" = none := rfl

end Conduit.Models
