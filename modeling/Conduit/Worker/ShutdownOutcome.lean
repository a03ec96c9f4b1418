import Conduit.Jobs.Machine
import Conduit.Worker.Run

/-!
# Outcomes and shutdown

The statement that writes the outcome of a job runs under the context of the pool,
which is cancelled when the server is told to stop.  A handler that is still at work
then may finish, but what it achieved is not recorded: the row stays `RUNNING` until
its lease expires, and the job runs again.
-/

namespace Conduit.JobWorker

open Models Transition Relational JobStore JobService
open JobMachine (plainEnv plainJob)

variable {execution : Execution} {result : HandlerResult}

/-- The row tells the outcome. -/
def Recorded (execution : Execution) (result : HandlerResult) : Prop :=
  ∃ row ∈ execution.table.rows, row.id = execution.job.id ∧
    match result.error? with
    | none => row.state = .completed
    | some (errMsg, _) => (row.state = .pending ∨ row.state = .dead) ∧ row.lastError = errMsg

/-- No statement that is to write an outcome meets a cancelled context. -/
def Uncancelled (execution : Execution) : Label → Prop
  | .step _ =>
      match execution.stage with
      | .complete | .failRead .. | .failWrite .. => execution.cancelled = false
      | _ => True
  | _ => True

/-! ## Missed outcomes -/

/-- A store call that is to write the outcome misses it exactly on a cancelled context. -/
theorem missed_write_iff (written : Execution) (hwritten : written.missed = execution.missed) :
    (if execution.cancelled then execution.miss else written).missed = false ↔
      execution.missed = false ∧ execution.cancelled = false := by
  by_cases hcancelled : execution.cancelled = true
  · rw [if_pos hcancelled, hcancelled]
    exact iff_of_false (Bool.noConfusion ·) fun hopen => Bool.noConfusion hopen.2
  · rw [if_neg hcancelled, hwritten]
    exact (and_iff_left (Bool.eq_false_iff.mpr hcancelled)).symm

/-- Until the handler runs, a step gets to no stage that is to record an outcome. -/
theorem unhandled_advance {turn : Turn} (hrecords : execution.stage.records = false)
    (hexecute : execution.stage ≠ .execute) :
    (execution.advance turn).missed = execution.missed ∧
      (execution.advance turn).handled = execution.handled ∧
      (execution.advance turn).stage.records = false := by
  rw [Execution.advance]
  cases hstage : execution.stage with
  | wait =>
      refine ⟨rfl, rfl, ?_⟩
      dsimp only [Execution.wait]
      split
      · rfl
      · split
        · split <;> rfl
        · rfl
  | sleep =>
      refine ⟨rfl, rfl, ?_⟩
      dsimp only [Execution.sleep]
      split
      · rfl
      · split <;> rfl
  | allow =>
      refine ⟨rfl, rfl, ?_⟩
      dsimp only [Execution.allow]
      split <;> rfl
  | lock =>
      refine ⟨rfl, rfl, ?_⟩
      dsimp only [Execution.lock]
      split <;> rfl
  | release reason retryAfter => exact ⟨rfl, rfl, rfl⟩
  | claim =>
      refine ⟨rfl, rfl, ?_⟩
      dsimp only [Execution.claim]
      split
      · rfl
      · split
        · rfl
        · split <;> rfl
  | claimWrite claimed =>
      dsimp only [Execution.claimWrite]
      split
      · exact ⟨rfl, rfl, rfl⟩
      · split <;> exact ⟨rfl, rfl, rfl⟩
  | returned => exact ⟨rfl, rfl, hrecords⟩
  | execute => exact absurd hstage hexecute
  | record _ | complete | failRead _ _ | failWrite _ _ _ =>
      rw [hstage] at hrecords
      cases hrecords

theorem missed_record {now : ℤ} : (execution.record now result).missed = execution.missed := by
  rw [Execution.record]
  split <;> rfl

theorem missed_step_iff (label : Label) :
    (execution.step label).missed = false ↔
      execution.missed = false ∧ Uncancelled execution label := by
  cases label with
  | cancel | others _ | reports _ | renew _ => exact (and_iff_left trivial).symm
  | step turn =>
      rw [Execution.step, Uncancelled]
      cases hstage : execution.stage with
      | complete =>
          rw [Execution.advance, hstage]
          exact missed_write_iff _ rfl
      | failRead errMsg permanent =>
          rw [Execution.advance, hstage]
          exact missed_write_iff _ rfl
      | failWrite errMsg permanent job =>
          rw [Execution.advance, hstage]
          exact missed_write_iff _ rfl
      | record result =>
          rw [Execution.advance, hstage, and_true]
          dsimp only
          rw [missed_record]
      | execute =>
          rw [Execution.advance, hstage, and_true]
          rfl
      | wait | sleep | allow | lock | release _ _ | claim | claimWrite _ | returned =>
          rw [and_true, (unhandled_advance (by rw [hstage]; rfl) (by rw [hstage]; nofun)).1]

theorem cancelled_advance {turn : Turn} :
    (execution.advance turn).cancelled = execution.cancelled := by
  rw [Execution.advance]
  cases execution.stage with
  | claimWrite claimed =>
      dsimp only [Execution.claimWrite]
      split
      · rfl
      · split <;> rfl
  | record result =>
      dsimp only [Execution.record]
      split <;> rfl
  | complete =>
      dsimp only [Execution.complete, Execution.miss]
      split <;> rfl
  | failRead errMsg permanent =>
      dsimp only [Execution.failRead, Execution.miss]
      split <;> rfl
  | failWrite errMsg permanent job =>
      dsimp only [Execution.failWrite, Execution.miss]
      split <;> rfl
  | wait | sleep | allow | lock | release _ _ | claim | execute | returned => rfl

/-- A run whose context is never cancelled writes its outcome under it. -/
theorem uncancelled_run {labels : List Label} (hopen : execution.cancelled = false)
    (hcancel : ∀ label ∈ labels, label ≠ .cancel)
    (hallowed : machine.AllowedRun execution labels) :
    (machine.restrict Uncancelled).AllowedRun execution labels := by
  apply Machine.AllowedRun.restrict (fun execution => execution.cancelled = false) _ hallowed
    hopen hcancel
  intro before label hopen hcancel
  cases label with
  | cancel => exact absurd rfl hcancel
  | others _ | reports _ | renew _ => exact ⟨trivial, hopen⟩
  | step turn =>
      refine ⟨?_, cancelled_advance.trans hopen⟩
      rw [Uncancelled]
      split <;> first | exact hopen | trivial

/-! ## The row between the handler's return and the run's -/

/-- The handler returned `result`, and if the lease was held then it still is. -/
def Handled (execution : Execution) (result : HandlerResult) : Prop :=
  ∃ held, execution.handled = some (result, held) ∧ (held = true → execution.Holds)

/-- What has become of the job, stage by stage. -/
def StageOk (execution : Execution) : Prop :=
  match execution.stage with
  | .record result => execution.missed = false ∧ Handled execution result
  | .complete => execution.missed = false ∧
      ∃ result, Handled execution result ∧ result.error? = none
  | .failRead errMsg permanent | .failWrite errMsg permanent _ =>
      execution.missed = false ∧
        ∃ result, Handled execution result ∧ result.error? = some (errMsg, permanent)
  | .returned => ∀ result, execution.handled = some (result, true) →
      (Recorded execution result ↔ execution.missed = false)
  | _ => execution.missed = false ∧ execution.handled = none

/-- A row that is still leased tells no outcome. -/
theorem not_recorded_of_holds (hholds : execution.Holds) : ¬ Recorded execution result := by
  rintro ⟨row, hrow, hid, hstate⟩
  obtain ⟨-, held, hheld, hheldID, hrunning, -⟩ := hholds
  rw [execution.table.key_unique hrow hheld (hid.trans hheldID.symm)] at hstate
  split at hstate
  · rw [hrunning] at hstate
    cases hstate
  · rw [hrunning] at hstate
    rcases hstate.1 with hpending | hdead
    · cases hpending
    · cases hdead

/-- A statement fenced by the lease writes the row of a run that holds it. -/
theorem exists_set_of_holds (statement : Statement)
    (hselects : ∀ row, Statement.Holds execution.job.id execution.job.leaseToken row →
      statement.Selects row) (hholds : execution.Holds) :
    ∃ row ∈ execution.table.rows,
      Statement.Holds execution.job.id execution.job.leaseToken row ∧
        statement.set row ∈ (execution.table.exec statement.update).rows := by
  obtain ⟨-, row, hrow, hheld⟩ := hholds
  exact ⟨row, hrow, hheld, Table.mem_exec.mpr ⟨row, hrow, if_pos (hselects row hheld)⟩⟩

theorem Handled.holds (hhandled : Handled execution result) {reported : HandlerResult}
    (hreported : execution.handled = some (reported, true)) :
    reported = result ∧ execution.Holds := by
  obtain ⟨held, hresult, hheld⟩ := hhandled
  rw [hresult, Option.some.injEq, Prod.mk.injEq] at hreported
  exact ⟨hreported.1.symm, hheld hreported.2⟩

theorem stageOk_miss (hhandled : Handled execution result) : StageOk execution.miss := by
  intro reported hreported
  have hholds : execution.miss.Holds := (hhandled.holds hreported).2
  exact iff_of_false (not_recorded_of_holds hholds) (Bool.noConfusion ·)

theorem stageOk_complete {env : Env} (hmissed : execution.missed = false)
    (hhandled : Handled execution result) (hresult : result.error? = none) :
    StageOk (execution.complete env) := by
  rw [Execution.complete]
  split
  case isTrue => exact stageOk_miss hhandled
  case isFalse =>
    intro reported hreported
    obtain ⟨rfl, hholds⟩ := hhandled.holds hreported
    refine iff_of_true ?_ hmissed
    obtain ⟨row, hrow, hheld, hset⟩ := exists_set_of_holds
      (.completeClaimedJob execution.job.id execution.job.leaseToken (.item (.object ∅))
        env.dbNow) (fun row hrow => hrow) hholds
    rw [Recorded, completeClaimedJob, completeClaimedJobStatement, withToken, if_neg hholds.1]
    refine ⟨_, hset, hheld.1, ?_⟩
    rw [hresult]
    rfl

theorem stageOk_failWrite {env : Env} {errMsg : String} {permanent : Bool} {job : Job}
    (hmissed : execution.missed = false) (hhandled : Handled execution result)
    (hresult : result.error? = some (errMsg, permanent)) :
    StageOk (execution.failWrite env errMsg permanent job) := by
  rw [Execution.failWrite]
  split
  case isTrue => exact stageOk_miss hhandled
  case isFalse =>
    intro reported hreported
    obtain ⟨rfl, hholds⟩ := hhandled.holds hreported
    refine iff_of_true ?_ hmissed
    obtain ⟨row, hrow, hheld, hset⟩ := exists_set_of_holds
      (.failClaimedJob execution.job.id execution.job.leaseToken errMsg
        (failNextRun env job permanent) env.dbNow) (fun row hrow => hrow) hholds
    rw [Recorded, failClaimedJob, failClaimedJobStatement, withToken, if_neg hholds.1]
    refine ⟨_, hset, hheld.1, ?_⟩
    rw [hresult]
    refine ⟨?_, rfl⟩
    change (if _ then JobState.pending else JobState.dead) = _ ∨
      (if _ then JobState.pending else JobState.dead) = _
    split
    · exact .inl rfl
    · exact .inr rfl

theorem stageOk_failRead {errMsg : String} {permanent : Bool}
    (hmissed : execution.missed = false) (hhandled : Handled execution result)
    (hresult : result.error? = some (errMsg, permanent)) :
    StageOk (execution.failRead errMsg permanent) := by
  rw [Execution.failRead]
  split
  case isTrue => exact stageOk_miss hhandled
  case isFalse =>
    cases hget : getJob execution.table anyTenant execution.job.id with
    | ok job => exact ⟨hmissed, result, hhandled, hresult⟩
    | error err =>
        -- A held lease has a row, so the read finds it.
        intro reported hreported
        obtain ⟨-, -, row, hrow, hid, -⟩ := hhandled.holds hreported
        exact absurd (.inl rfl) ((getJob_eq_error hget).2 row hrow hid)

theorem stageOk_of_unhandled (hmissed : execution.missed = false)
    (hhandled : execution.handled = none) (hrecords : execution.stage.records = false) :
    StageOk execution := by
  rw [StageOk]
  cases hstage : execution.stage with
  | record _ | complete | failRead _ _ | failWrite _ _ _ =>
      rw [hstage] at hrecords
      cases hrecords
  | returned =>
      intro result hresult
      rw [hhandled] at hresult
      cases hresult
  | wait | sleep | allow | lock | release _ _ | claim | claimWrite _ | execute =>
      exact ⟨hmissed, hhandled⟩

/-- The steps up to the handler. -/
theorem stageOk_before {turn : Turn} (hmissed : execution.missed = false)
    (hhandled : execution.handled = none) (hrecords : execution.stage.records = false) :
    StageOk (execution.advance turn) := by
  by_cases hexecute : execution.stage = .execute
  · rw [Execution.advance, hexecute]
    exact ⟨hmissed, _, rfl, of_decide_eq_true⟩
  · obtain ⟨hmissed', hhandled', hrecords'⟩ := unhandled_advance hrecords hexecute
    exact stageOk_of_unhandled (hmissed'.trans hmissed) (hhandled'.trans hhandled) hrecords'

theorem stageOk_record {now : ℤ} (hmissed : execution.missed = false)
    (hhandled : Handled execution result) : StageOk (execution.record now result) := by
  rw [Execution.record]
  split
  case h_1 hresult => exact ⟨hmissed, result, hhandled, hresult⟩
  case h_2 errMsg permanent hresult => exact ⟨hmissed, result, hhandled, hresult⟩

theorem stageOk_advance {turn : Turn} (hok : StageOk execution) :
    StageOk (execution.advance turn) := by
  have hstageOk := hok
  rw [StageOk] at hok
  cases hstage : execution.stage with
  | record result =>
      rw [hstage] at hok
      rw [Execution.advance, hstage]
      exact stageOk_record hok.1 hok.2
  | complete =>
      rw [hstage] at hok
      obtain ⟨hmissed, result, hhandled, hresult⟩ := hok
      rw [Execution.advance, hstage]
      exact stageOk_complete hmissed hhandled hresult
  | failRead errMsg permanent =>
      rw [hstage] at hok
      obtain ⟨hmissed, result, hhandled, hresult⟩ := hok
      rw [Execution.advance, hstage]
      exact stageOk_failRead hmissed hhandled hresult
  | failWrite errMsg permanent job =>
      rw [hstage] at hok
      obtain ⟨hmissed, result, hhandled, hresult⟩ := hok
      rw [Execution.advance, hstage]
      exact stageOk_failWrite hmissed hhandled hresult
  | returned =>
      rw [Execution.advance, hstage]
      exact hstageOk
  | wait | sleep | allow | lock | release _ _ | claim | claimWrite _ | execute =>
      rw [hstage] at hok
      exact stageOk_before hok.1 hok.2 (by rw [hstage]; rfl)

/-- What others do to the table leaves the stage as it is, if it leaves the lease. -/
theorem stageOk_table {table : JobTable} (hok : StageOk execution)
    (hstage : execution.stage ≠ .returned)
    (hholds : execution.stage.records = true → execution.Holds →
      { execution with table }.Holds) : StageOk { execution with table } := by
  have hkeeps : ∀ result, execution.stage.records = true → Handled execution result →
      Handled { execution with table } result := by
    rintro result hrecords ⟨held, hhandled, hheld⟩
    exact ⟨held, hhandled, fun htrue => hholds hrecords (hheld htrue)⟩
  rw [StageOk] at hok ⊢
  cases hcase : execution.stage with
  | returned => exact absurd hcase hstage
  | record result =>
      rw [hcase] at hok hkeeps
      exact ⟨hok.1, hkeeps result rfl hok.2⟩
  | complete | failRead _ _ | failWrite _ _ _ =>
      rw [hcase] at hok hkeeps
      obtain ⟨hmissed, result, hhandled, hresult⟩ := hok
      exact ⟨hmissed, result, hkeeps result rfl hhandled, hresult⟩
  | wait | sleep | allow | lock | release _ _ | claim | claimWrite _ | execute =>
      rw [hcase] at hok
      exact hok

theorem holds_renew {env : Env} (hholds : execution.Holds) : (execution.renew env).Holds := by
  rw [Execution.renew]
  split
  case isTrue => exact hholds
  case isFalse =>
    obtain ⟨row, hrow, hheld, hset⟩ := exists_set_of_holds
      (.renewLease execution.job.id execution.job.leaseToken
        (env.storeNow + effectiveLease execution.cfg.lease) env.dbNow)
      (fun row hrow => hrow) hholds
    refine ⟨hholds.1, ?_⟩
    dsimp only
    rw [renewLease, renewLeaseStatement, withToken, if_neg hholds.1]
    exact ⟨_, hset, hheld⟩

theorem stageOk_step {label : Label} (hallowed : execution.Allowed label)
    (hok : StageOk execution) : StageOk (execution.step label) := by
  cases label with
  | cancel | reports _ => exact hok
  | others table =>
      apply stageOk_table hok hallowed.1
      rintro hrecords ⟨htoken, row, hrow, hheld⟩
      exact ⟨htoken, row, hallowed.2 hrecords row hrow hheld.1, hheld⟩
  | renew env =>
      apply stageOk_table hok
      · intro hreturned
        rw [Execution.Allowed, hreturned] at hallowed
        cases hallowed
      · intro _ hholds
        exact holds_renew hholds
  | step turn => exact stageOk_advance hok

theorem stageOk (hreach : machine.Reachable execution) : StageOk execution := by
  apply hreach.invariant StageOk
  · rintro execution ⟨hstage, hhandled, hmissed⟩
    exact stageOk_of_unhandled hmissed hhandled (by rw [hstage]; rfl)
  · intro execution label hreach hallowed hok
    exact stageOk_step hallowed hok

/-- The outcome of a handler that returned with the lease held is in the row when the
run returns exactly when the context was not cancelled by the time the outcome was to
be written. -/
theorem recorded_iff_uncancelled {labels : List Label} (hbegins : Begins execution)
    (hallowed : machine.AllowedRun execution labels)
    (hreturned : (machine.run execution labels).stage = .returned)
    (hhandled : (machine.run execution labels).handled = some (result, true)) :
    Recorded (machine.run execution labels) result ↔
      (machine.restrict Uncancelled).AllowedRun execution labels := by
  have hok : StageOk (machine.run execution labels) :=
    stageOk (Machine.Reachable.run (.start hbegins) hallowed)
  rw [StageOk, hreturned] at hok
  have hmissed := Machine.run_iff_restrict (fun execution => execution.missed = false)
    (fun before label _ => missed_step_iff label) hallowed
  rw [hok result hhandled, hmissed]
  exact and_iff_right hbegins.2.2

/-- A job the reconciler has claimed, and no other. -/
def claimedTable : JobTable where
  rows := [createRow 0 { plainJob with
    id := "job-1", state := .running, attempt := 1, leaseToken := "lease-1" }]
  keyed := List.pairwise_singleton ..
  indexed := List.pairwise_singleton ..

/-- A run of that job, which has a handler. -/
def claimedExecution : Execution where
  cfg := ⟨minute, minute, ["report"], id⟩
  table := claimedTable
  breaker := CircuitBreaker.new ⟨0, 0, 0, 0⟩
  cancelled := false
  job := { plainJob with
    id := "job-1", state := .running, attempt := 1, leaseToken := "lease-1" }
  stage := .wait
  handled := none
  missed := false

/-- A step that finds the lock free and a handler that fails. -/
def failing : Label :=
  .step ⟨plainEnv 1 minute "", true, true, .retryable "timeout"⟩

/-- A step that finds the lock free and a handler that succeeds. -/
def succeeding : Label :=
  .step ⟨plainEnv 1 minute "", true, true, .ok⟩

def failedRun : List Label :=
  [failing, failing, failing, failing, failing, failing, failing, failing]

theorem recorded_failedRun :
    Recorded (machine.run claimedExecution failedRun) (.retryable "timeout") := by
  have hallowed : machine.AllowedRun claimedExecution failedRun :=
    ⟨trivial, trivial, trivial, trivial, trivial, trivial, trivial, trivial, trivial⟩
  have hreturned : (machine.run claimedExecution failedRun).stage = .returned := by
    decide +kernel
  have hhandled : (machine.run claimedExecution failedRun).handled =
      some (.retryable "timeout", true) := by
    decide +kernel
  exact (recorded_iff_uncancelled ⟨rfl, rfl, rfl⟩ hallowed hreturned hhandled).mpr
    (uncancelled_run rfl (by simp [failedRun, failing]) hallowed)

/-- The context is cancelled while the handler runs. -/
def cancelledRun : List Label :=
  [succeeding, succeeding, succeeding, succeeding, .cancel, succeeding, succeeding, succeeding]

theorem not_forall_recorded :
    ¬ ∀ (execution : Execution) (labels : List Label) (result : HandlerResult),
      Begins execution → machine.AllowedRun execution labels →
      (machine.run execution labels).stage = .returned →
      (machine.run execution labels).handled = some (result, true) →
        Recorded (machine.run execution labels) result := by
  intro hforall
  have hallowed : machine.AllowedRun claimedExecution cancelledRun :=
    ⟨trivial, trivial, trivial, trivial, trivial, trivial, trivial, trivial, trivial⟩
  have hreturned : (machine.run claimedExecution cancelledRun).stage = .returned := by
    decide +kernel
  have hhandled : (machine.run claimedExecution cancelledRun).handled = some (.ok, true) := by
    decide +kernel
  have hholds : (machine.run claimedExecution cancelledRun).Holds := by decide +kernel
  exact not_recorded_of_holds hholds
    (hforall claimedExecution cancelledRun .ok ⟨rfl, rfl, rfl⟩ hallowed hreturned hhandled)

end Conduit.JobWorker
