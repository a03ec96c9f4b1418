import Conduit.Jobs.FailReport
import Conduit.Retry.Backoff

/-!
# A retry waits for its backoff

`JobService.Fail` asks the retry engine for a delay and writes the time of the next run
into the row; `ClaimNextJob` only takes rows that are due.  Between the two any number of
other callers work on the table.  Until something happens to the job, its row can only
stay as the failure left it, be cancelled or be deleted, so the next claim comes after
the delay.  A claim over Kafka does not look at the time of the next run.
-/

namespace Conduit.RetryWait

open Models Relational JobStore JobService JobCalls JobMachine LeaseFencing FailReport Retry
open Binary64

/-- No row of the job can be claimed before `due`, short of a requeue. -/
def Waits (id : String) (due : ℤ) (table : JobTable) : Prop :=
  ∀ row ∈ table.rows, row.id = id →
    row.state = .dead ∨ row.state = .pending ∧ row.scheduledAt = some due

section Quiet

variable {id : String} {due : ℤ} {env : Env} {table : JobTable} {call : Call}

/-- A statement that selects a row and tells nothing of it cancels it. -/
theorem cancels_of_statementEvents_eq_nil {statement : Statement} {row : Row}
    (hstate : row.state = .dead ∨ row.state = .pending) (hrow : row ∈ table.rows)
    (hstatement : call.statement env table = some statement) (hselects : statement.Selects row)
    (hquiet : statementEvents statement row = []) : (statement.set row).state = .dead := by
  have hrunning : row.state ≠ .running := by
    rcases hstate with hstate | hstate <;> simp [hstate]
  cases statement with
  | cancelJob => rfl
  | renewLease => exact absurd hselects.2.1 hrunning
  | requeueExpiredRunning =>
      exact absurd (running_of_statement hstatement hrow hselects) hrunning
  | _ => cases hquiet

theorem Waits.exec (hwaits : Waits id due table) {statement : Statement}
    (hstatement : call.statement env table = some statement)
    (hquiet : eventsOf
      ((table.affected statement.update).flatMap (statementEvents statement)) id = []) :
    Waits id due (table.exec statement.update) := by
  intro row hrow hid
  obtain ⟨old, hold, rfl⟩ := Table.mem_exec.1 hrow
  by_cases hselects : statement.update.selects old
  · rw [if_pos hselects] at hid ⊢
    have holdID : old.id = id := (statement.set_id old).symm.trans hid
    have hstate : old.state = .dead ∨ old.state = .pending :=
      (hwaits old hold holdID).imp_right And.left
    refine .inl (cancels_of_statementEvents_eq_nil hstate hold hstatement hselects ?_)
    rw [List.eq_nil_iff_forall_not_mem]
    intro event hevent
    refine List.eq_nil_iff_forall_not_mem.mp hquiet event (List.mem_filter.mpr ⟨?_, ?_⟩)
    · exact List.mem_flatMap.mpr ⟨old, Table.mem_affected.mpr ⟨hold, hselects⟩, hevent⟩
    · exact decide_eq_true ((eventJob_of_mem_statementEvents hevent).trans (congrArg some holdID))
  · rw [if_neg hselects] at hid ⊢
    exact hwaits old hold hid

theorem Waits.does (hwaits : Waits id due table) {after : JobTable} {events : List Event}
    (hdoes : call.Does env table after events) (hquiet : eventsOf events id = []) :
    Waits id due after := by
  cases hdoes with
  | nothing | found => exact hwaits
  | updated statement hstatement => exact hwaits.exec hstatement hquiet
  | inserted job after hcall hcreate =>
      intro row hrow hid
      rcases (Table.mem_insert (createJob_eq_ok hcreate)).1 hrow with hold | rfl
      · exact hwaits row hold hid
      · have hcreated : .created (prepareJob env job).id ∈ eventsOf
            [.enqueued (prepareJob env job).tenantID (prepareJob env job).idempotencyKey
              (prepareJob env job).id true (shouldPublishImmediately (prepareJob env job) env.now),
              .created (prepareJob env job).id] id :=
          List.mem_filter.mpr ⟨by simp, decide_eq_true (congrArg some hid)⟩
        rw [hquiet] at hcreated
        cases hcreated
  | deleted ids hcall =>
      intro row hrow hid
      exact hwaits row (Table.mem_delete.1 hrow).1 hid

end Quiet

section Runs

variable {id : String} {due : ℤ}

/-- A step changes nothing, gives a call up, or runs a statement of one. -/
theorem step_eq (world : World) (label : Label) :
    (∃ calls, world.step label = { world with calls }) ∨
      ∃ env call calls, world.step label = { world with calls }.perform env call := by
  cases label with
  | issue env call => exact .inr ⟨env, call, world.calls, rfl⟩
  | resume env index =>
      rw [World.step]
      cases world.calls[index]? with
      | none => exact .inl ⟨world.calls, rfl⟩
      | some call => exact .inr ⟨env, call, world.calls.eraseIdx index, rfl⟩
  | drop index => exact .inl ⟨world.calls.eraseIdx index, rfl⟩

theorem eventsOf_perform (world : World) (env : Env) (call : Call) :
    eventsOf (world.perform env call).history id =
      eventsOf (call.effect env world.jobs).events id ++ eventsOf world.history id :=
  eventsOf_append ..

theorem eventsOf_suffix_step (world : World) (label : Label) :
    eventsOf world.history id <:+ eventsOf (world.step label).history id := by
  rcases step_eq world label with ⟨calls, hstep⟩ | ⟨env, call, calls, hstep⟩
  · rw [hstep]
  · rw [hstep, eventsOf_perform]
    exact List.suffix_append _ _

theorem eventsOf_suffix_run (world : World) (labels : List Label) :
    eventsOf world.history id <:+ eventsOf (labels.foldl World.step world).history id := by
  induction labels generalizing world with
  | nil => exact List.suffix_rfl
  | cons label labels ih => exact (eventsOf_suffix_step world label).trans (ih _)

theorem Waits.step {world : World} {label : Label} (hwaits : Waits id due world.jobs)
    (hquiet : eventsOf (world.step label).history id = eventsOf world.history id) :
    Waits id due (world.step label).jobs := by
  rcases step_eq world label with ⟨calls, hstep⟩ | ⟨env, call, calls, hstep⟩
  · rw [hstep]
    exact hwaits
  · rw [hstep] at hquiet ⊢
    rw [eventsOf_perform, List.append_left_eq_self] at hquiet
    exact hwaits.does (effect_does env world.jobs call) hquiet

/-- While nothing happens to the job, its row keeps waiting. -/
theorem Waits.run {world : World} (labels : List Label) (hwaits : Waits id due world.jobs)
    (hquiet : eventsOf (labels.foldl World.step world).history id = eventsOf world.history id) :
    Waits id due (labels.foldl World.step world).jobs := by
  induction labels generalizing world with
  | nil => exact hwaits
  | cons label labels ih =>
      have hrest : eventsOf (world.step label).history id <:+ eventsOf world.history id := by
        rw [← hquiet]
        exact eventsOf_suffix_run (world.step label) labels
      have hstep : eventsOf (world.step label).history id = eventsOf world.history id :=
        hrest.eq_of_length_le (eventsOf_suffix_step world label).length_le
      exact ih (hwaits.step hstep) (hquiet.trans hstep.symm)

end Runs

/-! ## The failure and the claim -/

theorem timestamptz_mono {earlier later : ℤ} (hle : earlier ≤ later) :
    timestamptz earlier ≤ timestamptz later := by
  unfold timestamptz
  omega

section Endpoints

variable {env : Env} {table : JobTable} {id leaseToken : String}

/-- An event of an `UPDATE` is about a row it selected. -/
theorem exists_row_of_updateEffect {call : Call} {event : Event}
    (hevent : event ∈ (call.updateEffect env table).events) :
    ∃ statement, call.statement env table = some statement ∧
      (call.updateEffect env table).table = table.exec statement.update ∧
      ∃ row ∈ table.rows, statement.Selects row ∧ event ∈ statementEvents statement row := by
  rw [Call.updateEffect] at hevent ⊢
  cases hstatement : call.statement env table with
  | none =>
      rw [hstatement] at hevent
      cases hevent
  | some statement =>
      rw [hstatement] at hevent
      obtain ⟨row, hrow, hevent⟩ := List.mem_flatMap.mp hevent
      obtain ⟨hrow, hselects⟩ := Table.mem_affected.mp hrow
      exact ⟨statement, rfl, rfl, row, hrow, hselects, hevent⟩

/-- A reported failure that asked for another run leaves the job waiting for it. -/
theorem waits_of_failWrite {errMsg : String} {permanent : Bool} {job : Job} {nextRun : ℤ}
    (hretry : failNextRun env job permanent = some nextRun)
    (hfailed : .ended id leaseToken .fail ∈
      ((Call.failWrite id leaseToken errMsg permanent job).effect env table).events) :
    Waits id (timestamptz nextRun)
      ((Call.failWrite id leaseToken errMsg permanent job).effect env table).table := by
  obtain ⟨statement, hstatement, htable, failed, hfailedRow, hselects, -⟩ :=
    exists_row_of_updateEffect hfailed
  cases issues_of_statement hstatement
  intro row hrow hid
  change row ∈ (Call.updateEffect env table _).table.rows at hrow
  rw [htable] at hrow
  obtain ⟨old, hold, rfl⟩ := Table.mem_exec.mp hrow
  have holdID : old.id = id := by
    split at hid
    · exact hid
    · exact hid
  obtain rfl := table.key_unique hold hfailedRow (holdID.trans hselects.1.symm)
  have hset : (Statement.failClaimedJob id leaseToken errMsg (failNextRun env job permanent)
      env.dbNow).update.selects old := hselects
  rw [if_pos hset, hretry]
  exact .inr ⟨rfl, rfl⟩

/-- A claim of a waiting job comes when it is due. -/
theorem Waits.due_le_of_claimed {due leaseDuration : ℤ} {filter : ClaimFilter}
    (hwaits : Waits id due table)
    (hclaimed : .claimed id leaseToken ∈
      ((Call.claimNextJob leaseDuration filter).effect env table).events) :
    due ≤ timestamptz env.dbNow := by
  obtain ⟨statement, hstatement, -, row, hrow, hselects, hevent⟩ :=
    exists_row_of_updateEffect hclaimed
  have hid : row.id = id := Option.some.inj (eventJob_of_mem_statementEvents hevent).symm
  cases issues_of_statement hstatement
  obtain ⟨filter, hpending, hdue, -⟩ := claimable_of_statement hstatement hrow hselects
  rcases hwaits row hrow hid with hdead | ⟨-, hscheduled⟩
  · rw [hpending] at hdead
    cases hdead
  · exact hdue due hscheduled

end Endpoints

/-! ## Result -/

/-- When a failure was written that scheduled a retry, and nothing has happened to the job
since, a claim of it comes no earlier than the delay the engine gives without jitter to the
attempts the failure counted, which is the base delay at least. -/
theorem claim_waits_for_delay {Start : JobTable → Prop} {May : World → Env → Call → Prop}
    (cfg : Config) (hnumber : cfg.multiplier ≠ .nan)
    (hshort : (newEngine cfg).maxDelay ≤ 2 ^ 53) {world : World} {env : Env}
    {id leaseToken errMsg : String} {permanent : Bool} {job : Job} {random : ℚ}
    (hrandom : 0 ≤ random) (hbelow : random < 1)
    (hdelay : delay (newEngine cfg) job.attempt (.finite random) = some env.delay)
    (hretry : failNextRun env job permanent ≠ none)
    (hfailed : .ended id leaseToken .fail ∈
      ((Call.failWrite id leaseToken errMsg permanent job).effect env world.jobs).events)
    {labels : List Label} {later : World}
    (hlater : later = (machine Start May).run
      (world.perform env (.failWrite id leaseToken errMsg permanent job)) labels)
    (hquiet : eventsOf later.history id =
      eventsOf (world.perform env (.failWrite id leaseToken errMsg permanent job)).history id)
    {claimEnv : Env} {leaseDuration : ℤ} {filter : ClaimFilter} {claimToken : String}
    (hclaimed : .claimed id claimToken ∈
      ((Call.claimNextJob leaseDuration filter).effect claimEnv later.jobs).events) :
    ∃ least, delay { newEngine cfg with jitter := .ofInt 0 } job.attempt (.finite random) =
        some least ∧
      (newEngine cfg).baseDelay ≤ least ∧
      timestamptz (env.now + least) ≤ timestamptz claimEnv.dbNow := by
  obtain ⟨value, jittered, -, hleast, hwaited, hbase, hlonger, -⟩ :=
    exists_delay hnumber hshort job.attempt hrandom hbelow.le
  have henv : env.delay = ⌊jittered⌋ := Option.some.inj (hdelay.symm.trans hwaited)
  have hnext : failNextRun env job permanent = some (env.now + env.delay) := by
    rw [failNextRun] at hretry ⊢
    split at hretry
    · rename_i hagain
      exact if_pos hagain
    · exact absurd rfl hretry
  have hwaits : Waits id (timestamptz (env.now + env.delay)) later.jobs := by
    rw [hlater] at hquiet ⊢
    exact (waits_of_failWrite hnext hfailed).run labels hquiet
  refine ⟨⌊value⌋, hleast, Int.le_floor.mpr hbase, ?_⟩
  calc timestamptz (env.now + ⌊value⌋)
      ≤ timestamptz (env.now + env.delay) := by
        rw [henv]
        exact timestamptz_mono (Int.add_le_add_left (Int.floor_mono hlonger) _)
    _ ≤ timestamptz claimEnv.dbNow := hwaits.due_le_of_claimed hclaimed

/-- The worker's clock a minute on, with the delay after one attempt. -/
def reportEnv : Env := { plainEnv 1 minute "" with delay := 2000000000 }

def reportedFailure : Call :=
  .failWrite "job-1" reportedToken "boom" false reportedJob

/-- The failure is written and another job arrives. -/
def waitingWorld : World :=
  (machine NoLease (FailCalls reportedToken)).run (reportedWorld.perform reportEnv reportedFailure)
    [.issue (plainEnv 1 (2 * minute) "job-2") (.enqueue plainJob)]

theorem claim_waits_for_delay_waitingWorld :
    ∃ least, delay { newEngine mainEngine with jitter := .ofInt 0 } reportedJob.attempt
        (.finite 0) = some least ∧
      1000000000 ≤ least ∧
      timestamptz (minute + least) ≤ timestamptz (3 * minute) := by
  have hnumber : mainEngine.multiplier ≠ .nan := by
    rw [mainEngine, Double.ofInt_two]
    exact Double.noConfusion
  have hdelay : delay (newEngine mainEngine) reportedJob.attempt (.finite 0) =
      some reportEnv.delay := by
    decide +kernel
  have hfailed : .ended "job-1" reportedToken .fail ∈
      (reportedFailure.effect reportEnv reportedWorld.jobs).events := by
    decide +kernel
  have hquiet : eventsOf waitingWorld.history "job-1" =
      eventsOf (reportedWorld.perform reportEnv reportedFailure).history "job-1" := by
    decide +kernel
  have hclaimed : .claimed "job-1" (newLeaseToken fun _ => 2) ∈
      ((Call.claimNextJob minute ⟨anyTenant, [], []⟩).effect (plainEnv 2 (3 * minute) "")
        waitingWorld.jobs).events := by
    decide +kernel
  exact claim_waits_for_delay mainEngine hnumber (by decide) le_rfl zero_lt_one hdelay
    (by decide +kernel) hfailed rfl hquiet hclaimed

end Conduit.RetryWait
