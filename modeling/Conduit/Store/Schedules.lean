import Conduit.Core.Relational
import Conduit.Store.Models

/-!
# The schedule store

`ScheduleStore` owns the `schedules` table.  A schedule is a task template with a
cron expression; `next_run_at` is its next fire instant and, at the same time,
the value `AdvanceSchedule` compares before it moves it.
-/

namespace Conduit.ScheduleStore

open Models Relational

/-- `models.Schedule`. -/
structure Schedule where
  id : String
  tenantID : String
  name : String
  cron : String
  task : Task
  enabled : Bool
  nextRunAt : ℤ
  lastRunAt : Option ℤ
  lastJobID : String
  createdAt : ℤ
  updatedAt : ℤ
  deriving DecidableEq

/-- The columns of the `schedules` table.  The task of a schedule has no id, no
retry count and no cron expression of its own. -/
structure ScheduleRow where
  id : String
  name : String
  cronExpr : String
  taskName : String
  taskQueue : String
  taskPayload : Option (List UInt8)
  taskMaxRetries : ℤ
  taskTimeoutNs : ℤ
  taskMetadata : Jsonb
  enabled : Bool
  nextRunAt : ℤ
  lastRunAt : Option ℤ
  lastJobID : Option String
  createdAt : ℤ
  updatedAt : ℤ
  tenantID : String
  taskPriority : ℤ
  deriving DecidableEq

/-- `id` is the primary key and `schedules_tenant_name_idx` covers every row. -/
def schedules : Schema ScheduleRow String (String × String) where
  key := ScheduleRow.id
  index row := some (row.tenantID, row.name)

abbrev ScheduleTable := Table schedules

inductive ScheduleError
  | scheduleNotFound
  | duplicateSchedule
  deriving DecidableEq

def scanSchedule (row : ScheduleRow) : Schedule where
  id := row.id
  tenantID := row.tenantID
  name := row.name
  cron := row.cronExpr
  task := {
    id := ""
    name := row.taskName
    payload := row.taskPayload
    retryCount := 0
    maxRetries := row.taskMaxRetries
    timeout := row.taskTimeoutNs
    cronExpression := ""
    queue := row.taskQueue
    metadata := unmarshalMap row.taskMetadata
    priority := row.taskPriority }
  enabled := row.enabled
  nextRunAt := row.nextRunAt
  lastRunAt := row.lastRunAt
  lastJobID := row.lastJobID.getD ""
  createdAt := row.createdAt
  updatedAt := row.updatedAt

/-- The defaults `CreateSchedule` fills in; `newID` and `now` are the id it mints
and its clock reading. -/
def prepareSchedule (newID : String) (now : ℤ) (sched : Schedule) : Schedule := { sched with
  id := if sched.id = "" then newID else sched.id
  task := { sched.task with
    queue := if sched.task.queue = "" then defaultQueue else sched.task.queue }
  tenantID := if sched.tenantID = "" then defaultTenant else sched.tenantID
  createdAt := if sched.createdAt = zeroTime then now else sched.createdAt
  updatedAt := now }

def scheduleRow (sched : Schedule) : ScheduleRow where
  id := sched.id
  name := sched.name
  cronExpr := sched.cron
  taskName := sched.task.name
  taskQueue := sched.task.queue
  taskPayload := sched.task.payload
  taskMaxRetries := sched.task.maxRetries
  taskTimeoutNs := sched.task.timeout
  taskMetadata := marshalMap sched.task.metadata
  enabled := sched.enabled
  nextRunAt := timestamptz sched.nextRunAt
  lastRunAt := none
  lastJobID := none
  createdAt := timestamptz sched.createdAt
  updatedAt := timestamptz sched.updatedAt
  tenantID := sched.tenantID
  taskPriority := sched.task.priority

theorem tenantID_scheduleRow {sched : Schedule} {tenant : String} (htenant : tenant ≠ "")
    (howner : sched.tenantID = tenant) (newID : String) (now : ℤ) :
    (scheduleRow (prepareSchedule newID now sched)).tenantID = tenant := by
  change (if sched.tenantID = "" then defaultTenant else sched.tenantID) = tenant
  rw [howner, if_neg htenant]

/-- A repeated id and a repeated name are the same error: `CreateSchedule` looks
only at the SQL state of a unique violation. -/
def createSchedule (table : ScheduleTable) (newID : String) (now : ℤ) (sched : Schedule) :
    Except ScheduleError Schedule × ScheduleTable :=
  let prepared := prepareSchedule newID now sched
  match table.insert (scheduleRow prepared) with
  | .ok table' => (.ok prepared, table')
  | .error _ => (.error .duplicateSchedule, table)

/-- `collate` is the order of the database on text. -/
def listSchedules (collate : String → String → Bool) (table : ScheduleTable)
    (tenant : String) : List Schedule :=
  ((table.rows.filter fun row => row.tenantID = tenant).insertionSort
    fun left right => collate left.name right.name).map scanSchedule

/-- `WHERE id = $1 AND tenant_id = $2`. -/
def deleteSchedule (table : ScheduleTable) (tenant id : String) :
    Except ScheduleError Unit × ScheduleTable :=
  (if table.rows.filter (fun row => row.id = id ∧ row.tenantID = tenant) = []
    then .error .scheduleNotFound else .ok (),
    table.delete fun row => row.id = id ∧ row.tenantID = tenant)

/-- `WHERE enabled AND next_run_at <= $1`. -/
def Due (now : ℤ) (row : ScheduleRow) : Prop :=
  row.enabled = true ∧ row.nextRunAt ≤ timestamptz now

instance (now : ℤ) : DecidablePred (Due now) := fun _ =>
  inferInstanceAs (Decidable (_ ∧ _))

def runsBefore (left right : ScheduleRow) : Prop :=
  left.nextRunAt ≤ right.nextRunAt

instance : DecidableRel runsBefore := fun _ _ =>
  inferInstanceAs (Decidable (_ ≤ _))

instance : Std.Total runsBefore :=
  ⟨fun left right => le_total left.nextRunAt right.nextRunAt⟩

instance : IsTrans ScheduleRow runsBefore :=
  ⟨fun _ _ _ hleft hright => le_trans hleft hright⟩

def dueSchedules (table : ScheduleTable) (now limit : ℤ) : List Schedule :=
  if limit ≤ 0 then []
  else (selectOrdered runsBefore (Due now) limit.toNat table.rows).map scanSchedule

theorem mem_dueSchedules {table : ScheduleTable} {now limit : ℤ} {sched : Schedule}
    (hdue : sched ∈ dueSchedules table now limit) :
    ∃ row ∈ table.rows, Due now row ∧ sched = scanSchedule row := by
  rw [dueSchedules] at hdue
  split at hdue
  · cases hdue
  · obtain ⟨row, hrow, rfl⟩ := List.mem_map.1 hdue
    obtain ⟨hmem, hselects⟩ := mem_selectOrdered hrow
    exact ⟨row, hmem, hselects, rfl⟩

theorem mem_dueSchedules_of_due {table : ScheduleTable} {now limit : ℤ} {row : ScheduleRow}
    (hrow : row ∈ table.rows) (hdue : Due now row) (hlimit : table.rows.length ≤ limit) :
    scanSchedule row ∈ dueSchedules table now limit := by
  have hpositive := List.length_pos_of_mem hrow
  rw [dueSchedules, if_neg (by omega)]
  apply List.mem_map_of_mem
  exact mem_selectOrdered_of_length_le hrow hdue (by omega)

/-! ## Advancing -/

/-- `UPDATE ... SET next_run_at = $1, last_run_at = NOW(), last_job_id = $2,
updated_at = NOW() WHERE id = $3 AND next_run_at = $4`. -/
def advance (id : String) (observedNext next : ℤ) (lastJobID : String) (dbNow : ℤ) :
    Update schedules where
  selects row := row.id = id ∧ row.nextRunAt = timestamptz observedNext
  decides _ := inferInstanceAs (Decidable (_ ∧ _))
  set row := { row with
    nextRunAt := timestamptz next
    lastRunAt := some (timestamptz dbNow)
    lastJobID := nullableString lastJobID
    updatedAt := timestamptz dbNow }
  key_set _ := rfl
  index_set _ := rfl

def advanceSchedule (table : ScheduleTable) (dbNow : ℤ) (id : String)
    (observedNext next : ℤ) (lastJobID : String) : Bool × ScheduleTable :=
  ((table.affected (advance id observedNext next lastJobID dbNow)).length = 1,
    table.exec (advance id observedNext next lastJobID dbNow))

section Advance

variable {table : ScheduleTable} {dbNow : ℤ} {id lastJobID : String} {observedNext next : ℤ}

/-- An advance succeeds exactly when the row still has the observed value. -/
theorem advanceSchedule_fst (table : ScheduleTable) (dbNow : ℤ) (id : String)
    (observedNext next : ℤ) (lastJobID : String) :
    (advanceSchedule table dbNow id observedNext next lastJobID).1 = true ↔
      ∃ row ∈ table.rows, row.id = id ∧ row.nextRunAt = timestamptz observedNext := by
  rw [advanceSchedule, decide_eq_true_eq]
  constructor
  · intro hone
    obtain ⟨row, hrow⟩ := List.length_eq_one_iff.1 hone
    have hmem : row ∈ table.affected (advance id observedNext next lastJobID dbNow) := by
      rw [hrow]
      exact List.mem_singleton_self row
    exact ⟨row, Table.mem_affected.1 hmem⟩
  · rintro ⟨row, hrow, hselects⟩
    have hpairwise : (table.affected (advance id observedNext next lastJobID dbNow)).Pairwise
        fun left right => left.id ≠ right.id := table.keyed.filter _
    have hmem : row ∈ table.affected (advance id observedNext next lastJobID dbNow) :=
      Table.mem_affected.2 ⟨hrow, hselects⟩
    have hids : ∀ other ∈ table.affected (advance id observedNext next lastJobID dbNow),
        other.id = id := fun other hother => (Table.mem_affected.1 hother).2.1
    generalize table.affected (advance id observedNext next lastJobID dbNow) = affected at *
    match affected with
    | [] => cases hmem
    | [_] => rfl
    | first :: second :: rest =>
        have hne := (List.pairwise_cons.1 hpairwise).1 second (by simp)
        exact absurd ((hids first (by simp)).trans (hids second (by simp)).symm) hne

/-- What an advance leaves of each row: everything, except the fire instant of the
row it was for. -/
theorem mem_advanceSchedule {row : ScheduleRow}
    (hrow : row ∈ (advanceSchedule table dbNow id observedNext next lastJobID).2.rows) :
    ∃ old ∈ table.rows, row.id = old.id ∧ row.tenantID = old.tenantID ∧
      row.cronExpr = old.cronExpr ∧ row.enabled = old.enabled ∧
      row.nextRunAt = if old.id = id ∧ old.nextRunAt = timestamptz observedNext
        then timestamptz next else old.nextRunAt := by
  obtain ⟨old, hold, rfl⟩ := Table.mem_exec.1 hrow
  refine ⟨old, hold, ?_⟩
  by_cases hselects : old.id = id ∧ old.nextRunAt = timestamptz observedNext
  · rw [if_pos hselects]
    have hupdate : (advance id observedNext next lastJobID dbNow).selects old := hselects
    rw [if_pos hupdate]
    exact ⟨rfl, rfl, rfl, rfl, rfl⟩
  · rw [if_neg hselects]
    have hupdate : ¬ (advance id observedNext next lastJobID dbNow).selects old := hselects
    rw [if_neg hupdate]
    exact ⟨rfl, rfl, rfl, rfl, rfl⟩

/-- Every row is still there after an advance. -/
theorem exists_mem_advanceSchedule {old : ScheduleRow} (hold : old ∈ table.rows) :
    ∃ row ∈ (advanceSchedule table dbNow id observedNext next lastJobID).2.rows,
      row.id = old.id := by
  refine ⟨_, Table.mem_exec.2 ⟨old, hold, rfl⟩, ?_⟩
  split <;> rfl

end Advance

end Conduit.ScheduleStore
