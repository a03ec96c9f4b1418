import Conduit.Service.JobService
import Conduit.Store.Columns
import Conduit.Store.Paging

/-!
# A job through the store

A job is written once and read in many places.  Whatever reads it, by id, by its idempotency
key or in a list, gets it back as it was handed in, with its instants cut to the microsecond.
When the job has been claimed and is completed, the result of the worker is laid over the
metadata the job was created with, also where there was none.
-/

namespace Conduit.RoundTrip

open Models Relational JobStore JobService JobListing JobPaging Columns

/-- The job that is read back after `CreateJob`, whose clock read `now`. -/
def stored (now : ℤ) (job : Job) : Job := { job with
  scheduledAt := job.scheduledAt.map timestamptz
  startedAt := job.startedAt.map timestamptz
  leaseExpiresAt := job.leaseExpiresAt.map timestamptz
  completedAt := job.completedAt.map timestamptz
  createdAt := timestamptz (if job.createdAt = zeroTime then now else job.createdAt)
  updatedAt := timestamptz now }

theorem getD_nullableString (value : String) : (nullableString value).getD "" = value := by
  by_cases hempty : value = ""
  · rw [hempty]
    rfl
  · rw [nullableString_of_ne hempty, Option.getD_some]

theorem scanJob_createRow (now : ℤ) (job : Job) :
    scanJob (createRow now job) = stored now job := by
  simp [scanJob, createRow, stored, getD_nullableString]

/-! ## Reading the job -/

/-- All reads of a table return the job that was created, and a walk through the pages of a
list that it belongs to comes by it. -/
structure ReadBack (table created : JobTable) (now : ℤ) (job : Job) : Prop where
  byID : ∀ tenant, tenant = anyTenant ∨ tenant = job.tenantID →
    getJob created tenant job.id = .ok (stored now job)
  byKey : ∀ tenant, tenant = anyTenant ∨ tenant = job.tenantID → job.idempotencyKey ≠ "" →
    (tenant = anyTenant →
      ∀ row ∈ table.rows, row.idempotencyKey ≠ some job.idempotencyKey) →
    getJobByIdempotencyKey created tenant job.idempotencyKey = .ok (stored now job)
  listed : ∀ collate filter jobs nextCursor,
    listJobs collate created filter = .ok (jobs, nextCursor) →
      ∀ found ∈ jobs, found.id = job.id → found = stored now job
  walked : ∀ (collation : Collation) (filter : ListFilter), Stored created →
    Matches filter (createRow now job) →
      ∃ count calls,
        (∀ more, walk collation filter (List.replicate (count + more) created) "" = .ok calls) ∧
        stored now job ∈ returned calls

section Reads

variable {table created : JobTable} {now : ℤ} {job : Job}

theorem inTenant_createRow {tenant : String}
    (htenant : tenant = anyTenant ∨ tenant = job.tenantID) :
    InTenant tenant (createRow now job) :=
  htenant.imp_right Eq.symm

/-- No other row has the key of the job, within its tenant by the unique index. -/
theorem eq_createRow_of_key (hinsert : table.insert (createRow now job) = .ok created)
    {tenant : String} (htenant : tenant = anyTenant ∨ tenant = job.tenantID)
    (hkey : job.idempotencyKey ≠ "")
    (hscope : tenant = anyTenant →
      ∀ row ∈ table.rows, row.idempotencyKey ≠ some job.idempotencyKey)
    {other : Row} (hother : other ∈ created.rows)
    (hotherKey : other.idempotencyKey = some job.idempotencyKey)
    (hotherTenant : InTenant tenant other) : other = createRow now job := by
  by_cases hany : tenant = anyTenant
  · rcases (Table.mem_insert hinsert).mp hother with hold | hnew
    · exact absurd hotherKey (hscope hany other hold)
    · exact hnew
  · have hrow : createRow now job ∈ created.rows := (Table.mem_insert hinsert).mpr (.inr rfl)
    have htenants : other.tenantID = job.tenantID :=
      (hotherTenant.resolve_left hany).trans (htenant.resolve_left hany)
    have hotherIndex : jobs.index other = some (job.tenantID, job.idempotencyKey) := by
      simp only [jobs, hotherKey, Option.map_some, htenants]
    have hindex : jobs.index (createRow now job) = some (job.tenantID, job.idempotencyKey) := by
      simp only [jobs, createRow, nullableString_of_ne hkey, Option.map_some]
    exact created.index_unique hother hrow hotherIndex hindex

theorem readBack_of_createJob (hcreate : createJob table now job = .ok created) :
    ReadBack table created now job := by
  have hinsert := createJob_eq_ok hcreate
  have hrow : createRow now job ∈ created.rows := (Table.mem_insert hinsert).mpr (.inr rfl)
  have hstored := scanJob_createRow now job
  constructor
  · intro tenant htenant
    rw [← hstored]
    exact getJob_of_mem hrow (inTenant_createRow htenant)
  · intro tenant htenant hkey hscope
    rw [← hstored]
    exact getJobByIdempotencyKey_of_mem hrow (nullableString_of_ne hkey)
      (inTenant_createRow htenant) fun other hother hotherKey hotherTenant =>
        eq_createRow_of_key hinsert htenant hkey hscope hother hotherKey hotherTenant
  · intro collate filter jobs nextCursor hlist found hfound hid
    obtain ⟨rows, hrows, rfl, -⟩ := listJobs_eq_ok hlist
    obtain ⟨row, hmem, rfl⟩ := List.mem_map.mp hfound
    rw [created.key_unique (hrows row hmem).1 hrow hid, hstored]
  · intro collation filter hstoredTable hmatches
    have hfirst : position "" = .ok none := if_pos rfl
    obtain ⟨count, calls, steps, hcalls, hwalk, hrefines, htable, hended⟩ :=
      exists_ended_walk collation filter hstoredTable hfirst
    refine ⟨count, calls, hcalls, ?_⟩
    have hperm := perm_itemsRead htable hrefines hwalk hended
    rw [returned_eq hrefines, ← hstored]
    exact List.mem_map_of_mem (hperm.mem_iff.mpr
      (List.mem_filter.mpr ⟨hrow, decide_eq_true hmatches⟩))

end Reads

/-! ## Completing the job -/

/-- The result of the worker over the metadata of the job; a nil map counts as empty. -/
def merged (metadata result : Option StringMap) : StringMap :=
  result.getD ∅ ∪ metadata.getD ∅

/-- The result wins where both maps have a key. -/
theorem lookup_merged (metadata result : Option StringMap) (key : String) :
    (merged metadata result).lookup key =
      ((result.getD ∅).lookup key).or ((metadata.getD ∅).lookup key) := by
  rw [merged]
  by_cases hkey : key ∈ result.getD ∅
  · rw [Finmap.lookup_union_left hkey]
    obtain ⟨value, hvalue⟩ := Finmap.mem_iff.mp hkey
    rw [hvalue, Option.some_or]
  · rw [Finmap.lookup_union_right hkey, Finmap.lookup_eq_none.mpr hkey, Option.none_or]

/-- The job as `CompleteClaimedJob` leaves and returns it. -/
def completed (now dbNow : ℤ) (job : Job) (result : Option StringMap) : Job := {
  stored now job with
  state := .completed
  attempt := job.attempt + 1
  startedAt := none
  leaseExpiresAt := none
  leaseToken := ""
  completedAt := some (timestamptz dbNow)
  updatedAt := timestamptz dbNow
  metadata := some (merged job.metadata result) }

/-- A claim of the created row, and its completion on a table that still has the claimed row:
the job that is returned and the one that is stored have the result merged in and differ in
nothing else but what a claim and a completion are for. -/
def ResultMerged (now : ℤ) (job : Job) : Prop :=
  ∀ (table next later : JobTable) (claimNow claimDbNow leaseDuration : ℤ)
    (random : Fin 16 → UInt8) (locked : String → Bool) (filter : ClaimFilter) (claimed : Job),
    createRow now job ∈ table.rows →
      claimNextJob table claimNow claimDbNow (newLeaseToken random) locked leaseDuration filter =
        (.ok claimed, next) →
      claimed.id = job.id → (∀ row ∈ next.rows, row.id = job.id → row ∈ later.rows) →
      ∀ (dbNow : ℤ) (result : Option StringMap), ∃ final,
        completeClaimedJob later dbNow job.id claimed.leaseToken result =
          (.ok (completed now dbNow job result), final) ∧
        getJob final anyTenant job.id = .ok (completed now dbNow job result)

theorem concat_marshalMap (metadata result : Option StringMap) :
    unmarshalMap ((if (marshalMap metadata).isObject then marshalMap metadata
        else Jsonb.emptyObject).concat (.item (.object (result.getD ∅)))) =
      some (merged metadata result) := by
  cases metadata <;> rfl

/-- The write of `CompleteClaimedJob`. -/
def completion (id leaseToken : String) (dbNow : ℤ) (result : Option StringMap) : Statement :=
  .completeClaimedJob id leaseToken (.item (.object (result.getD ∅))) dbNow

/-- A completion under the lease of the row returns and stores the row it wrote. -/
theorem completeClaimedJob_of_held {table : JobTable} {row : Row} {leaseToken : String}
    (hrow : row ∈ table.rows) (hheld : Statement.Holds row.id leaseToken row)
    (hnonempty : leaseToken ≠ "") (dbNow : ℤ) (result : Option StringMap) :
    ∃ final, completeClaimedJob table dbNow row.id leaseToken result =
        (.ok (scanJob ((completion row.id leaseToken dbNow result).set row)), final) ∧
      (completion row.id leaseToken dbNow result).set row ∈ final.rows := by
  have hselects : (completion row.id leaseToken dbNow result).Selects row := hheld
  have honly : ∀ other, (completion row.id leaseToken dbNow result).Selects other →
      other.id = row.id := fun other hother => hother.1
  refine ⟨table.exec (completion row.id leaseToken dbNow result).update, ?_, ?_⟩
  · rw [completeClaimedJob, completeClaimedJobStatement, withToken, if_neg hnonempty]
    exact execReturning_of_selects .leaseLost hrow hselects honly
  · rw [Table.mem_exec]
    exact ⟨row, hrow, if_pos hselects⟩

/-- The row of a job between its claim and its completion. -/
def claimedRow (now claimNow leaseDuration : ℤ) (job : Job) (leaseToken : String) : Row :=
  (Statement.claimNextJob none claimNow (claimNow + leaseDuration) leaseToken).set
    (createRow now job)

theorem scanJob_completion (now claimNow leaseDuration dbNow : ℤ) (job : Job)
    (leaseToken : String) (result : Option StringMap) :
    scanJob ((completion job.id leaseToken dbNow result).set
        (claimedRow now claimNow leaseDuration job leaseToken)) =
      completed now dbNow job result := by
  have hmerged := concat_marshalMap job.metadata result
  simp only [completion, claimedRow, Statement.set, scanJob, createRow, completed, stored,
    getD_nullableString, unmarshalMap_marshalMap, hmerged, Option.getD_none]

theorem resultMerged (now : ℤ) (job : Job) : ResultMerged now job := by
  intro table next later claimNow claimDbNow leaseDuration random locked filter claimed hcreated
    hclaim hid hlater dbNow result
  obtain ⟨row, hrow, -, hclaimed, hnext⟩ :=
    exists_row_of_execReturning (congrArg Prod.fst hclaim)
  -- The claimed row is the created one with the columns a claim sets.
  have hsame : row = createRow now job := by
    apply table.key_unique hrow hcreated
    rw [hclaimed] at hid
    exact hid
  rw [hsame] at hclaimed hnext
  change claimed = scanJob (claimedRow now claimNow leaseDuration job _) at hclaimed
  change claimedRow now claimNow leaseDuration job (newLeaseToken random) ∈ _ at hnext
  rw [show table.exec _ = next from congrArg Prod.snd hclaim] at hnext
  have hheld := hlater _ hnext rfl
  have htoken : claimed.leaseToken = newLeaseToken random := by
    rw [hclaimed]
    rfl
  obtain ⟨final, hfinal, hstored⟩ := completeClaimedJob_of_held hheld ⟨rfl, rfl, rfl⟩
    (newLeaseToken_ne_empty random) dbNow result
  change completeClaimedJob later dbNow job.id _ result = (.ok (scanJob
    ((completion job.id _ dbNow result).set _)), final) at hfinal
  have hread := getJob_anyTenant hstored
  rw [scanJob_completion] at hfinal
  refine ⟨final, ?_, ?_⟩
  · rw [htoken]
    exact hfinal
  · exact hread.trans (congrArg Except.ok (scanJob_completion ..))

/-- A job that `CreateJob` has accepted is read back as it was, by every statement that reads
whole rows, and a worker's result is merged into its metadata when it is completed.  The
column lists and the arguments fit together position by position. -/
theorem job_survives_storage {table created : JobTable} {now : ℤ} {job : Job}
    (hcreate : createJob table now job = .ok created) :
    ((∀ column, column ∈ insertColumns) ∧
        insertArguments now job = insertColumns.map (datum (createRow now job))) ∧
      (∀ (query : Query) (row : Row),
        scan (query.columns.map (datum row)) = some (scanJob row)) ∧
      ReadBack table created now job ∧ ResultMerged now job ∧
      ∀ (result : Option StringMap) (key : String),
        (merged job.metadata result).lookup key =
          ((result.getD ∅).lookup key).or ((job.metadata.getD ∅).lookup key) :=
  ⟨insertArguments_eq now job, scan_columns, readBack_of_createJob hcreate,
    resultMerged now job, lookup_merged job.metadata⟩

/-- A job with an idempotency key and no metadata. -/
def orderJob : Job := { scanJob (pendingRow "job-1" 0) with
  idempotencyKey := "order-7"
  metadata := none }

/-- It is found by its key, claimed, and completed with a result. -/
theorem job_survives_storage_orderJob :
    let claim (table : JobTable) := claimNextJob table minute minute (newLeaseToken fun _ => 1)
      (fun _ => false) minute ⟨anyTenant, [], []⟩
    let result := some (Finmap.singleton "rows" "3")
    ∃ created claimed next final, createJob (Table.empty jobs) minute orderJob = .ok created ∧
      getJobByIdempotencyKey created "default" "order-7" = .ok (stored minute orderJob) ∧
      claim created = (.ok claimed, next) ∧
      completeClaimedJob next (2 * minute) "job-1" claimed.leaseToken result =
        (.ok (completed minute (2 * minute) orderJob result), final) := by
  intro claim result
  have hclaimed : ((createJob (Table.empty jobs) minute orderJob).toOption.bind fun created =>
      (claim created).1.toOption).map Job.id = some "job-1" := by
    decide +kernel
  cases hcreate : createJob (Table.empty jobs) minute orderJob with
  | error err =>
      rw [hcreate] at hclaimed
      cases hclaimed
  | ok created =>
      rw [hcreate] at hclaimed
      change (claim created).1.toOption.map Job.id = _ at hclaimed
      obtain ⟨-, -, hread, hmerged, -⟩ := job_survives_storage hcreate
      rcases hclaim : claim created with ⟨err | claimed, next⟩
      · rw [hclaim] at hclaimed
        cases hclaimed
      rw [hclaim] at hclaimed
      obtain ⟨final, hfinal, -⟩ := hmerged created next next minute minute minute (fun _ => 1)
        (fun _ => false) ⟨anyTenant, [], []⟩ claimed
        ((Table.mem_insert (createJob_eq_ok hcreate)).mpr (.inr rfl)) hclaim
        (Option.some.inj hclaimed) (fun _ hrow _ => hrow) (2 * minute) result
      refine ⟨created, claimed, next, final, rfl, ?_, hclaim, hfinal⟩
      refine hread.byKey "default" (.inr rfl) (by decide) fun hany => ?_
      exact absurd hany (by decide)

end Conduit.RoundTrip
