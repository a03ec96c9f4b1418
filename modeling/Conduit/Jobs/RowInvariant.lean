import Conduit.Jobs.Machine

/-!
# The row invariant

Six columns of a job row move together: its state, the three columns of the
lease, `completed_at` and `scheduled_at`.  Every statement writes some of them.
From an empty table every reachable row satisfies `RowOk`, so a pending row is
found by the claim query once it is due, a running one by the lease reaper once
its lease is over, and a terminal one by retention.
-/

namespace Conduit.RowInvariant

open Models Relational JobStore JobService JobWorker JobCalls JobMachine Transition

structure RowOk (row : Row) : Prop where
  state : row.state = .pending ∨ row.state = .running ∨ row.state = .completed ∨
    row.state = .dead
  leaseToken : row.state = .running ↔ row.leaseToken ≠ none
  leaseExpiresAt : row.leaseToken ≠ none ↔ row.leaseExpiresAt ≠ none
  startedAt : row.leaseExpiresAt ≠ none ↔ row.startedAt ≠ none
  completedAt : row.completedAt ≠ none ↔ row.state = .completed ∨ row.state = .dead
  scheduledAt : row.scheduledAt ≠ none

section Row

variable {row : Row}

theorem RowOk.pending (hstate : row.state = .pending) (htoken : row.leaseToken = none)
    (hexpires : row.leaseExpiresAt = none) (hstarted : row.startedAt = none)
    (hcompleted : row.completedAt = none) (hscheduled : row.scheduledAt ≠ none) :
    RowOk row := by
  constructor <;> simp_all

theorem RowOk.running (hstate : row.state = .running) (htoken : row.leaseToken ≠ none)
    (hexpires : row.leaseExpiresAt ≠ none) (hstarted : row.startedAt ≠ none)
    (hcompleted : row.completedAt = none) (hscheduled : row.scheduledAt ≠ none) :
    RowOk row := by
  constructor <;> simp_all

theorem RowOk.finished (hstate : row.state = .completed ∨ row.state = .dead)
    (htoken : row.leaseToken = none) (hexpires : row.leaseExpiresAt = none)
    (hstarted : row.startedAt = none) (hcompleted : row.completedAt ≠ none)
    (hscheduled : row.scheduledAt ≠ none) : RowOk row := by
  rcases hstate with hstate | hstate <;> constructor <;> simp_all

/-- A row that is pending or running has not completed. -/
theorem RowOk.uncompleted (hrow : RowOk row)
    (hstate : row.state = .pending ∨ row.state = .running) : row.completedAt = none := by
  by_contra hcompleted
  have hfinished := hrow.completedAt.1 hcompleted
  rcases hstate with hstate | hstate <;> simp [hstate] at hfinished

/-- What the job written by a Kafka claim carries. -/
structure ClaimOk (job : Job) : Prop where
  state : job.state = .running
  leaseToken : job.leaseToken ≠ ""
  leaseExpiresAt : job.leaseExpiresAt ≠ none
  startedAt : job.startedAt ≠ none
  completedAt : job.completedAt = none
  scheduledAt : job.scheduledAt ≠ none

theorem map_timestamptz_ne_none {instant : Option ℤ} (hinstant : instant ≠ none) :
    instant.map timestamptz ≠ none := by
  simpa using hinstant

/-- Every statement keeps the row invariant on the rows it selects.  The claim
and the reaper need the state their own query checked. -/
theorem RowOk.set {statement : Statement} (hrow : RowOk row)
    (hselects : statement.Selects row)
    (hclaim : ∀ selected now expires leaseToken,
      statement = .claimNextJob selected now expires leaseToken → row.state = .pending)
    (hexpired : ∀ expired dbNow, statement = .requeueExpiredRunning expired dbNow →
      row.state = .running)
    (hupdate : ∀ job updatedAt, statement = .updateJob job updatedAt → ClaimOk job) :
    RowOk (statement.set row) := by
  cases statement with
  | claimNextJob selected now expires leaseToken =>
      have hpending := hclaim selected now expires leaseToken rfl
      exact .running rfl (by simp [Statement.set]) (by simp [Statement.set])
        (by simp [Statement.set]) (hrow.uncompleted (.inl hpending)) hrow.scheduledAt
  | updateJob job updatedAt =>
      have hjob := hupdate job updatedAt rfl
      refine .running hjob.state ?_ (map_timestamptz_ne_none hjob.leaseExpiresAt)
        (map_timestamptz_ne_none hjob.startedAt) ?_
        (map_timestamptz_ne_none hjob.scheduledAt)
      · simp [Statement.set, hjob.state, hjob.leaseToken]
      · simp [Statement.set, hjob.completedAt]
  | renewLease id leaseToken expires dbNow =>
      have htoken : row.leaseToken ≠ none := hrow.leaseToken.1 hselects.2.1
      exact .running hselects.2.1 htoken (by simp [Statement.set])
        (hrow.startedAt.1 (hrow.leaseExpiresAt.1 htoken))
        (hrow.uncompleted (.inr hselects.2.1)) hrow.scheduledAt
  | releaseClaim id leaseToken reason nextRun dbNow =>
      exact .pending rfl rfl rfl rfl (hrow.uncompleted (.inr hselects.2.1))
        (by simp [Statement.set])
  | completeClaimedJob id leaseToken metadata dbNow =>
      exact .finished (.inl rfl) rfl rfl rfl (by simp [Statement.set]) hrow.scheduledAt
  | failClaimedJob id leaseToken errMsg nextRun dbNow =>
      cases nextRun with
      | none =>
          exact .finished (.inr rfl) rfl rfl rfl (by simp [Statement.set]) hrow.scheduledAt
      | some instant =>
          exact .pending rfl rfl rfl rfl (hrow.uncompleted (.inr hselects.2.1))
            (by simp [Statement.set])
  | cancelJob tenant id dbNow =>
      exact .finished (.inr rfl) rfl rfl rfl (by simp [Statement.set]) hrow.scheduledAt
  | requeueExpiredRunning expired dbNow =>
      have hrunning := hexpired expired dbNow rfl
      by_cases hspent : row.taskMaxRetries ≤ row.attempt
      · exact .finished (.inr (if_pos hspent)) rfl rfl rfl
          (by simp [Statement.set, hspent])
          (by simpa [Statement.set, hspent] using hrow.scheduledAt)
      · exact .pending (if_neg hspent) rfl rfl rfl
          ((if_neg hspent).trans (hrow.uncompleted (.inr hrunning)))
          (by simp [Statement.set, hspent])
  | requeueDeadJob tenant id dbNow =>
      exact .pending rfl rfl rfl rfl rfl (by simp [Statement.set])

end Row

/-! ## The run -/

def EmptyTable (table : JobTable) : Prop :=
  table = Table.empty jobs

/-- Every job-table operation; jobs are created by the callers of `Enqueue`. -/
def AnyCall (_ : World) (_ : Env) : Call → Prop
  | .enqueue job => FromCaller job
  | _ => True

/-- What a published message carries. -/
structure MessageOk (message : Job) : Prop where
  completedAt : message.completedAt = none
  scheduledAt : message.scheduledAt ≠ none

def CallOk : Call → Prop
  | .kafkaClaim message _ => MessageOk message
  | .kafkaWrite job => ClaimOk job
  | .enqueue job | .enqueueInsert job => FromCaller job
  | _ => True

structure WorldOk (world : World) : Prop where
  rows : ∀ row ∈ world.jobs.rows, RowOk row
  messages : ∀ message ∈ world.messages, MessageOk message
  calls : ∀ call ∈ world.calls, CallOk call

theorem fromCaller_of_inserts {call : Call} {job : Job} (hcall : CallOk call)
    (hinserts : call.Inserts job) : FromCaller job := by
  rcases hinserts with rfl | ⟨requested, rfl, rfl, -⟩
  · exact hcall
  · exact FromCaller.withTenant hcall

theorem claimOk_claimMessage {message : Job} (hmessage : MessageOk message)
    (lease now : ℤ) (random : Fin 16 → UInt8) :
    ClaimOk (claimMessage lease now (newLeaseToken random) message) where
  state := rfl
  leaseToken := newLeaseToken_ne_empty random
  leaseExpiresAt := by simp [claimMessage]
  startedAt := by simp [claimMessage]
  __ := hmessage

section Perform

variable {world : World} {env : Env} {call : Call}

theorem rowOk_createRow {job : Job} (hjob : FromCaller job) (now : ℤ) :
    RowOk (createRow now (prepareJob env job)) := by
  apply RowOk.pending
  · simp [createRow, prepareJob, hjob.state]
  · exact createRow_leaseToken hjob.leaseToken
  · simp [createRow, prepareJob, hjob.leaseExpiresAt]
  · simp [createRow, prepareJob, hjob.startedAt]
  · simp [createRow, prepareJob, hjob.completedAt]
  · simp [createRow, prepareJob]

theorem rowOk_of_statement {table : JobTable} {statement : Statement} {row : Row}
    (hcall : CallOk call) (hstatement : call.statement env table = some statement)
    (hmem : row ∈ table.rows) (hselects : statement.Selects row) (hrow : RowOk row) :
    RowOk (statement.set row) := by
  refine hrow.set hselects ?_ ?_ ?_
  · rintro selected now expires leaseToken rfl
    obtain ⟨filter, hclaimable⟩ := claimable_of_statement hstatement hmem hselects
    exact hclaimable.1
  · rintro expired dbNow rfl
    exact running_of_statement hstatement hmem hselects
  · rintro job updatedAt rfl
    obtain ⟨rfl, -⟩ := statement_eq_updateJob hstatement
    exact hcall

theorem rowOk_of_does {table after : JobTable} {events : List Event}
    (hcall : CallOk call) (hrows : ∀ row ∈ table.rows, RowOk row)
    (hdoes : call.Does env table after events) : ∀ row ∈ after.rows, RowOk row := by
  cases hdoes with
  | nothing => exact hrows
  | found job existing hlooksUp hfound => exact hrows
  | updated statement hstatement =>
      exact Table.exec_forall hrows fun row hrow hselects =>
        rowOk_of_statement hcall hstatement hrow hselects
  | inserted job after hinserts hcreated =>
      intro row hrow
      rcases (Table.mem_insert (createJob_eq_ok hcreated)).1 hrow with hold | rfl
      · exact hrows row hold
      · exact rowOk_createRow (fromCaller_of_inserts hcall hinserts) env.storeNow
  | deleted ids hdelete =>
      intro row hrow
      exact hrows row (Table.mem_delete.1 hrow).1

theorem callOk_of_leads {table : JobTable} {next : Call} (hcall : CallOk call)
    (hleads : Call.Leads env table call next) : CallOk next := by
  cases hleads with
  | kafkaWrite message lease hclaims hread =>
      exact claimOk_claimMessage hcall lease env.now env.random
  | enqueueInsert job hkey => exact FromCaller.withTenant hcall
  | _ => trivial

theorem WorldOk.perform (hworld : WorldOk { world with calls := call :: world.calls }) :
    WorldOk (world.perform env call) := by
  have hcall := hworld.calls call (List.mem_cons_self ..)
  refine ⟨rowOk_of_does hcall hworld.rows (effect_does env world.jobs call), ?_, ?_⟩
  · intro message hmessage
    rcases List.mem_append.1 hmessage with hnew | hold
    · obtain ⟨job, hinserts, rfl, -⟩ := effect_published (Option.mem_toList.1 hnew)
      have hjob := fromCaller_of_inserts hcall hinserts
      exact ⟨hjob.completedAt, by simp [delivered, prepareJob]⟩
    · exact hworld.messages message hold
  · exact forall_mem_calls_perform hworld.calls fun next hleads hcall =>
      callOk_of_leads hcall hleads

theorem callOk_of_starts (hworld : WorldOk world)
    (hstarts : Starts world call) (hmay : AnyCall world env call) : CallOk call := by
  have hinitial := hstarts.initial
  cases call with
  | kafkaClaim message lease =>
      exact hworld.messages message (hstarts.published message lease rfl)
  | enqueue job => exact hmay
  | kafkaWrite | enqueueInsert => cases hinitial
  | _ => trivial

end Perform

theorem worldOk {world : World} (hreach : (machine EmptyTable AnyCall).Reachable world) :
    WorldOk world := by
  refine invariant_of_perform WorldOk hreach ?_ ?_ ?_ ?_
  · rintro table rfl
    constructor
    · intro row hrow
      cases hrow
    · intro message hmessage
      cases hmessage
    · intro call hcall
      cases hcall
  · intro world calls hcalls hworld
    exact ⟨hworld.rows, hworld.messages,
      fun call hcall => hworld.calls call (hcalls.subset hcall)⟩
  · intro world env call hstarts hmay hworld
    exact ⟨hworld.rows, hworld.messages,
      List.forall_mem_cons.2 ⟨callOk_of_starts hworld hstarts hmay, hworld.calls⟩⟩
  · intro world env call _ hworld
    exact hworld.perform

/-! ## Nothing is stranded -/

/-- From the moment it is due, the row is in reach of a claim that asks for any
tenant, queue and name. -/
def ClaimableOnceDue (row : Row) : Prop :=
  ∃ due ∈ row.scheduledAt, ∀ dbNow locked, due ≤ timestamptz dbNow →
    locked row.id = false → Claimable dbNow ⟨anyTenant, [], []⟩ locked row

/-- From the moment its lease is over, the row is in reach of the reaper. -/
def VisibleToReaper (row : Row) : Prop :=
  ∃ expires ∈ row.leaseExpiresAt, ∀ dbNow locked, expires ≤ timestamptz dbNow →
    locked row.id = false → LeaseExpired dbNow locked row

/-- Retention with a cutoff after its completion finds the row. -/
def VisibleToRetention (row : Row) : Prop :=
  ∃ completed ∈ row.completedAt, ∀ before, completed < timestamptz before →
    FinishedBefore row.state before row

section Visible

variable {row : Row}

theorem RowOk.claimableOnceDue (hrow : RowOk row) (hstate : row.state = .pending) :
    ClaimableOnceDue row := by
  obtain ⟨due, hdue⟩ := Option.ne_none_iff_exists'.1 hrow.scheduledAt
  refine ⟨due, hdue, fun dbNow locked hnow hlocked => ?_⟩
  refine ⟨hstate, ?_, .inl rfl, .inl rfl, .inl rfl, hlocked⟩
  intro scheduledAt hscheduled
  rw [hdue, Option.mem_some_iff] at hscheduled
  exact hscheduled ▸ hnow

theorem RowOk.visibleToReaper (hrow : RowOk row) (hstate : row.state = .running) :
    VisibleToReaper row := by
  have hleased := hrow.leaseExpiresAt.1 (hrow.leaseToken.1 hstate)
  obtain ⟨expires, hexpires⟩ := Option.ne_none_iff_exists'.1 hleased
  exact ⟨expires, hexpires, fun dbNow locked hnow hlocked =>
    ⟨hstate, ⟨expires, hexpires, hnow⟩, hlocked⟩⟩

theorem RowOk.visibleToRetention (hrow : RowOk row)
    (hstate : row.state = .completed ∨ row.state = .dead) : VisibleToRetention row := by
  obtain ⟨completed, hcompleted⟩ :=
    Option.ne_none_iff_exists'.1 (hrow.completedAt.2 hstate)
  exact ⟨completed, hcompleted, fun before hbefore =>
    ⟨rfl, completed, hcompleted, hbefore⟩⟩

end Visible

/-- In every table reached from the empty one, every row satisfies the row
invariant; a row that is not terminal is claimable once due or visible to the
lease reaper, and a terminal one is visible to retention. -/
theorem no_row_stranded {world : World}
    (hreach : (machine EmptyTable AnyCall).Reachable world) {row : Row}
    (hmem : row ∈ world.jobs.rows) :
    RowOk row ∧
      (row.state ≠ .completed ∧ row.state ≠ .dead →
        ClaimableOnceDue row ∨ VisibleToReaper row) ∧
      (row.state = .completed ∨ row.state = .dead → VisibleToRetention row) := by
  have hrow := (worldOk hreach).rows row hmem
  refine ⟨hrow, ?_, hrow.visibleToRetention⟩
  rintro ⟨hcompleted, hdead⟩
  rcases hrow.state with hstate | hstate | hstate | hstate
  · exact .inl (hrow.claimableOnceDue hstate)
  · exact .inr (hrow.visibleToReaper hstate)
  · exact absurd hstate hcompleted
  · exact absurd hstate hdead

theorem no_row_stranded_claimedRun :
    ((machine EmptyTable AnyCall).run emptyWorld claimedRun).jobs.rows.map Row.state =
        [.running] ∧
      ∀ row ∈ ((machine EmptyTable AnyCall).run emptyWorld claimedRun).jobs.rows,
        RowOk row := by
  have hstart : (machine EmptyTable AnyCall).Reachable emptyWorld :=
    .start ⟨rfl, rfl, rfl, rfl, rfl⟩
  have hreach := hstart.run (allowedRun_claimedRun fromCaller_plainJob trivial)
  constructor
  · decide +kernel
  · intro row hrow
    exact (no_row_stranded hreach hrow).1

end Conduit.RowInvariant
