import Conduit.Jobs.LeaseFencing
import Conduit.Jobs.RowInvariant

/-!
# The retry budget

`attempt` is raised by a claim, lowered by a release and reset by a requeue, and
the budget is enforced in two places: by `shouldRetry` in Go when a failure is
reported, and by a `CASE` in SQL when a lease expires.  The Go side decides on a
row it read earlier; the lease token is what makes that read still true at the
write.
-/

namespace Conduit.RetryBudget

open Models Relational JobStore JobService JobWorker JobCalls JobMachine LeaseFencing RowInvariant
open Transition

/-! ## Attempts in the history -/

def isReset : Event → Bool
  | .created _ | .requeued _ => true
  | _ => false

def isClaim : Event → Bool
  | .claimed .. => true
  | _ => false

def isRelease : Event → Bool
  | .ended _ _ .release => true
  | _ => false

/-- The events of a job since its creation or its last requeue. -/
def sinceReset (events : List Event) : List Event :=
  events.takeWhile fun event => !isReset event

/-- How often the job was handed to a worker and not given back since then. -/
def spentAttempts (events : List Event) : ℤ :=
  (sinceReset events).countP isClaim - (sinceReset events).countP isRelease

theorem spentAttempts_cons {event : Event} {events : List Event}
    (hreset : isReset event = false) :
    spentAttempts (event :: events) =
      spentAttempts events + (if isClaim event then 1 else 0) -
        (if isRelease event then 1 else 0) := by
  have hcons : sinceReset (event :: events) = event :: sinceReset events :=
    List.takeWhile_cons_of_pos (by rw [hreset, Bool.not_false])
  rw [spentAttempts, hcons, List.countP_cons, List.countP_cons, spentAttempts]
  cases isClaim event <;> cases isRelease event <;> simp <;> omega

@[simp]
theorem spentAttempts_claimed (id leaseToken : String) (events : List Event) :
    spentAttempts (.claimed id leaseToken :: events) = spentAttempts events + 1 := by
  rw [spentAttempts_cons rfl]
  simp [isClaim, isRelease]

@[simp]
theorem spentAttempts_release (id leaseToken : String) (events : List Event) :
    spentAttempts (.ended id leaseToken .release :: events) = spentAttempts events - 1 := by
  rw [spentAttempts_cons rfl]
  simp [isClaim, isRelease]

theorem spentAttempts_ended {id leaseToken : String} {events : List Event} (how : Ending)
    (hhow : how ≠ .release) :
    spentAttempts (.ended id leaseToken how :: events) = spentAttempts events := by
  have hkept : isRelease (.ended id leaseToken how) = false := by
    cases how with
    | release => exact absurd rfl hhow
    | _ => rfl
  rw [spentAttempts_cons rfl, hkept]
  simp [isClaim]

/-! ## The invariant of a row -/

structure BudgetOk (events : List Event) (row : Row) : Prop where
  budget : 1 ≤ row.taskMaxRetries
  attempt : row.attempt = spentAttempts events
  nonneg : 0 ≤ row.attempt
  bounded : row.attempt ≤ row.taskMaxRetries
  pending : row.state = .pending → row.attempt < row.taskMaxRetries
  running : row.state = .running → 1 ≤ row.attempt

section Row

variable {events : List Event} {row : Row}

theorem BudgetOk.spentAttempts_revoke (hrow : BudgetOk events row) (how : Ending)
    (hhow : how ≠ .release) :
    row.attempt =
      spentAttempts (row.leaseToken.toList.map (.ended row.id · how) ++ events) := by
  rcases row.leaseToken with _ | leaseToken
  · exact hrow.attempt
  · exact hrow.attempt.trans (spentAttempts_ended how hhow).symm

/-- Every statement keeps the budget.  A claim has to find the row pending, a
Kafka claim has to count on from the stored attempt, and a failure may only ask
for a retry while the stored attempt is below the budget. -/
theorem BudgetOk.set {statement : Statement} (hrow : BudgetOk events row)
    (hselects : statement.Selects row)
    (hclaim : ∀ selected now expires leaseToken,
      statement = .claimNextJob selected now expires leaseToken → row.state = .pending)
    (hupdate : ∀ job updatedAt, statement = .updateJob job updatedAt →
      row.state = .pending ∧ job.state = .running ∧ job.attempt = row.attempt + 1)
    (hfail : ∀ id leaseToken errMsg instant dbNow,
      statement = .failClaimedJob id leaseToken errMsg (some instant) dbNow →
        row.attempt < row.taskMaxRetries) :
    BudgetOk (statementEvents statement row ++ events) (statement.set row) := by
  have hbudget := hrow.budget
  have hnonneg := hrow.nonneg
  have hattempt := hrow.attempt
  have hbounded := hrow.bounded
  cases statement with
  | claimNextJob selected now expires leaseToken =>
      have hlt := hrow.pending (hclaim selected now expires leaseToken rfl)
      exact ⟨hbudget, by simp [statementEvents, Statement.set, hattempt],
        by simp only [Statement.set]; omega, by simp only [Statement.set]; omega,
        by simp [Statement.set], fun _ => by simp only [Statement.set]; omega⟩
  | updateJob job updatedAt =>
      obtain ⟨hpending, hstate, hnext⟩ := hupdate job updatedAt rfl
      have hlt := hrow.pending hpending
      exact ⟨hbudget, by simp [statementEvents, Statement.set, hattempt, hnext],
        by simp only [Statement.set]; omega, by simp only [Statement.set]; omega,
        by simp [Statement.set, hstate], fun _ => by simp only [Statement.set]; omega⟩
  | renewLease id leaseToken expires dbNow =>
      exact ⟨hbudget, hattempt, hnonneg, hbounded, hrow.pending, hrow.running⟩
  | releaseClaim id leaseToken reason nextRun dbNow =>
      have hone := hrow.running hselects.2.1
      have hgiven : max (row.attempt - 1) 0 =
          spentAttempts (.ended row.id leaseToken .release :: events) := by
        rw [spentAttempts_release, ← hattempt]
        omega
      exact ⟨hbudget, hgiven, by simp only [Statement.set]; omega,
        by simp only [Statement.set]; omega, fun _ => by simp only [Statement.set]; omega,
        by simp [Statement.set]⟩
  | completeClaimedJob id leaseToken metadata dbNow =>
      exact ⟨hbudget, hattempt.trans (spentAttempts_ended .complete (by decide)).symm, hnonneg,
        hbounded, by simp [Statement.set], by simp [Statement.set]⟩
  | failClaimedJob id leaseToken errMsg nextRun dbNow =>
      refine ⟨hbudget, hattempt.trans (spentAttempts_ended .fail (by decide)).symm, hnonneg,
        hbounded, ?_, ?_⟩
      · cases nextRun with
        | none => simp [Statement.set]
        | some instant => exact fun _ => hfail id leaseToken errMsg instant dbNow rfl
      · cases nextRun <;> simp [Statement.set]
  | cancelJob tenant id dbNow =>
      exact ⟨hbudget, hrow.spentAttempts_revoke .cancel (by decide), hnonneg, hbounded,
        by simp [Statement.set], by simp [Statement.set]⟩
  | requeueExpiredRunning expired dbNow =>
      refine ⟨hbudget, hrow.spentAttempts_revoke .expiry (by decide), hnonneg, hbounded, ?_, ?_⟩
      · by_cases hspent : row.taskMaxRetries ≤ row.attempt
        · simp [Statement.set, hspent]
        · exact fun _ => not_le.1 hspent
      · by_cases hspent : row.taskMaxRetries ≤ row.attempt
        · simp [Statement.set, hspent]
        · simp [Statement.set, hspent]
  | requeueDeadJob tenant id dbNow =>
      exact ⟨hbudget, rfl, le_refl 0, by simp only [Statement.set]; omega,
        fun _ => by simp only [Statement.set]; omega, by simp [Statement.set]⟩

end Row

/-! ## The run -/

/-- The token a `Fail` presents. -/
def presentedToken : Call → Option String
  | .fail _ leaseToken _ _ | .failWrite _ leaseToken _ _ _ => some leaseToken
  | _ => none

/-- A new token is not one that a `Fail` under way has presented. -/
def UnforeseenToken (world : World) (env : Env) (call : Call) : Prop :=
  call.mints = true → ∀ other ∈ world.calls,
    presentedToken other ≠ some (newLeaseToken env.random)

/-- Job-table operations on either transport.  Failures are reported through
`JobService.Fail`, not with a token whose Kafka claim is still to be written, and
the write of a Kafka claim finds the attempt its message counts on from. -/
def BudgetCalls (world : World) (env : Env) (call : Call) : Prop :=
  LeaseCalls world env call ∧ UnforeseenToken world env call ∧
    match call with
    | .failClaimedJob .. => False
    | .fail _ leaseToken _ _ => ∀ written, .kafkaWrite written ∈ world.calls →
        written.leaseToken ≠ leaseToken
    | .kafkaWrite job => ∀ row ∈ world.jobs.rows,
        (Statement.updateJob job env.storeNow).Selects row → job.attempt = row.attempt + 1
    | _ => True

/-- What is known of a call with statements left to run. -/
def CallBudget (table : JobTable) (calls : List Call) : Call → Prop
  | .failWrite id leaseToken _ _ job =>
      (∀ row ∈ table.rows, row.id = id → row.leaseToken = some leaseToken →
        ReadOf job row) ∧
      ∀ written, .kafkaWrite written ∈ calls → written.leaseToken ≠ leaseToken
  | .fail _ leaseToken _ _ =>
      ∀ written, .kafkaWrite written ∈ calls → written.leaseToken ≠ leaseToken
  | .enqueue job | .enqueueInsert job => FromCaller job
  | .failClaimedJob .. => False
  | _ => True

structure BudgetInv (world : World) : Prop where
  fencing : FencingInv world
  rows : RowsInv BudgetOk world.jobs world.history
  calls : ∀ call ∈ world.calls, CallBudget world.jobs world.calls call

section Perform

variable {world : World} {env : Env} {call : Call}

theorem budgetOk_createRow {job : Job} (hjob : FromCaller job) (now : ℤ) :
    BudgetOk [.created (prepareJob env job).id] (createRow now (prepareJob env job)) := by
  have hattempt : (createRow now (prepareJob env job)).attempt = 0 := hjob.attempt
  have hbudget : 1 ≤ (createRow now (prepareJob env job)).taskMaxRetries :=
    storedMaxRetries_pos env.engine job.task.maxRetries
  refine ⟨hbudget, hattempt, by omega, by omega, fun _ => by omega, ?_⟩
  simp [createRow, prepareJob, hjob.state]

theorem fromCaller_of_callBudget {table : JobTable} {calls : List Call} {job : Job}
    (hcall : CallBudget table calls call) (hinserts : call.Inserts job) :
    FromCaller job := by
  rcases hinserts with rfl | ⟨requested, rfl, rfl, -⟩
  · exact hcall
  · exact FromCaller.withTenant hcall

/-- A retry is only asked for while the stored attempt is below the budget. -/
theorem retry_below_budget {table : JobTable} {calls : List Call} {row : Row}
    {id leaseToken errMsg : String} {instant dbNow : ℤ}
    (hcall : CallBudget table calls call) (hmem : row ∈ table.rows)
    (hbudget : 1 ≤ row.taskMaxRetries)
    (hstatement : call.statement env table =
      some (.failClaimedJob id leaseToken errMsg (some instant) dbNow))
    (hholds : Statement.Holds id leaseToken row) : row.attempt < row.taskMaxRetries := by
  rcases statement_eq_failClaimedJob hstatement with rfl | ⟨permanent, job, rfl, hnext⟩
  · exact False.elim hcall
  · have hread := hcall.1 row hmem hholds.1 hholds.2.2
    have hpositive : 0 < job.task.maxRetries := by
      rw [hread.maxRetries]
      omega
    have hlt := failNextRun_isSome hpositive (by rw [← hnext]; rfl)
    rwa [hread.attempt, hread.maxRetries] at hlt

theorem BudgetInv.perform_rows
    (hinv : BudgetInv { world with calls := call :: world.calls })
    (hmay : BudgetCalls world env call) :
    RowsInv BudgetOk (world.perform env call).jobs (world.perform env call).history := by
  have hcall := hinv.calls call (List.mem_cons_self ..)
  refine RowsInv.perform hinv.rows ?_ ?_ ?_
  · rintro ids rfl
    cases hinv.fencing.keeps _ (List.mem_cons_self ..)
  · intro statement hstatement row hrow hselects hrowInv
    refine hrowInv.set hselects ?_ ?_ ?_
    · rintro selected now expires leaseToken rfl
      obtain ⟨filter, hclaimable⟩ := claimable_of_statement hstatement hrow hselects
      exact hclaimable.1
    · rintro job updatedAt rfl
      obtain ⟨rfl, rfl⟩ := statement_eq_updateJob hstatement
      have hpending := hinv.fencing.tokens.pending_of_kafkaWrite (List.mem_cons_self ..)
        hrow hselects
      exact ⟨hpending.1, hpending.2.2, hmay.2.2 row hrow hselects⟩
    · rintro id leaseToken errMsg instant dbNow rfl
      exact retry_below_budget hcall hrow hrowInv.budget hstatement hselects
  · intro job hinserts
    exact budgetOk_createRow (fromCaller_of_callBudget hcall hinserts) env.storeNow

/-- The Kafka writes under way after a statement: those before it and, if it was
the read of a Kafka claim, one with the new token. -/
theorem kafkaWrite_mem_perform {written : Job}
    (hwritten : .kafkaWrite written ∈ (world.perform env call).calls) :
    .kafkaWrite written ∈ world.calls ∨
      call.mints = true ∧ written.leaseToken = newLeaseToken env.random := by
  rcases mem_calls_perform hwritten with hleads | hold
  · exact .inr (pendingToken_of_leads hleads rfl)
  · exact .inl hold

theorem BudgetInv.callBudget_of_leads {next : Call}
    (hinv : BudgetInv { world with calls := call :: world.calls })
    (hleads : Call.Leads env world.jobs call next) :
    CallBudget (world.perform env call).jobs (world.perform env call).calls next := by
  have hcall := hinv.calls call (List.mem_cons_self ..)
  cases hleads with
  | failWrite id leaseToken errMsg permanent job hread =>
      obtain ⟨found, hfound, hid, -, rfl⟩ := getJob_eq_ok hread
      constructor
      · intro row hrow hrowID htoken
        have hsame : row = found := world.jobs.key_unique
          (by simpa [World.perform, World.absorb, Call.effect] using hrow) hfound
          (hrowID.trans hid.symm)
        rw [hsame]
        rfl
      · intro written hwritten
        rcases kafkaWrite_mem_perform hwritten with hold | ⟨hmints, -⟩
        · exact hcall written (List.mem_cons_of_mem _ hold)
        · cases hmints
  | enqueueInsert job hkey => exact FromCaller.withTenant hcall
  | _ => trivial

/-- Two calls under way do not get in each other's way. -/
theorem BudgetInv.callBudget_of_mem {other : Call}
    (hinv : BudgetInv { world with calls := call :: world.calls })
    (hmay : BudgetCalls world env call) (hother : other ∈ world.calls) :
    CallBudget (world.perform env call).jobs (world.perform env call).calls other := by
  have hcall := hinv.calls call (List.mem_cons_self ..)
  have hbefore := hinv.calls other (List.mem_cons_of_mem _ hother)
  have hwrites : ∀ leaseToken, presentedToken other = some leaseToken →
      (∀ written, .kafkaWrite written ∈ world.calls → written.leaseToken ≠ leaseToken) →
      ∀ written, .kafkaWrite written ∈ (world.perform env call).calls →
        written.leaseToken ≠ leaseToken := by
    intro leaseToken hpresented hold written hwritten
    rcases kafkaWrite_mem_perform hwritten with hmem | ⟨hmints, heq⟩
    · exact hold written hmem
    · have hunforeseen := hmay.2.1 hmints other hother
      rw [hpresented, ne_eq, Option.some.injEq] at hunforeseen
      rw [heq]
      exact Ne.symm hunforeseen
  cases other with
  | failWrite id leaseToken errMsg permanent job =>
      have hgrants : ¬ Grants env call leaseToken := by
        rintro (⟨⟨leaseDuration, filter, rfl⟩, heq⟩ | ⟨written, rfl, heq⟩)
        · exact hmay.2.1 rfl _ hother (congrArg some heq)
        · exact hbefore.2 written (List.mem_cons_self ..) heq.symm
      refine ⟨?_, hwrites leaseToken rfl fun written hmem =>
        hbefore.2 written (List.mem_cons_of_mem _ hmem)⟩
      exact readOf_of_does hbefore.1 hgrants
        (fun created hinserts => (fromCaller_of_callBudget hcall hinserts).leaseToken)
        (effect_does env world.jobs call)
  | fail id leaseToken errMsg permanent =>
      exact hwrites leaseToken rfl fun written hmem =>
        hbefore written (List.mem_cons_of_mem _ hmem)
  | _ => exact hbefore

theorem BudgetInv.perform (hinv : BudgetInv { world with calls := call :: world.calls })
    (hmay : BudgetCalls world env call) : BudgetInv (world.perform env call) := by
  refine ⟨hinv.fencing.perform hmay.1.1, hinv.perform_rows hmay, ?_⟩
  intro other hother
  rcases mem_calls_perform hother with hleads | hold
  · exact hinv.callBudget_of_leads hleads
  · exact hinv.callBudget_of_mem hmay hold

theorem callBudget_of_starts (hstarts : Starts world call)
    (hmay : BudgetCalls world env call) :
    CallBudget world.jobs (call :: world.calls) call := by
  have hinitial := hstarts.initial
  have hlease := hmay.1.2
  have hbudget := hmay.2.2
  cases call with
  | fail id leaseToken errMsg permanent =>
      intro written hwritten
      rcases List.mem_cons.1 hwritten with heq | hold
      · cases heq
      · exact hbudget written hold
  | failClaimedJob id leaseToken errMsg nextRun => exact hbudget
  | enqueue job => exact hlease
  | failWrite | enqueueInsert => cases hinitial
  | _ => trivial

/-- Adding a call that is no Kafka write leaves what is known of the others. -/
theorem CallBudget.cons {table : JobTable} {calls : List Call} {other : Call}
    (hother : CallBudget table calls other) (hcall : call.continues = false) :
    CallBudget table (call :: calls) other := by
  have hkept : ∀ {written : Job}, .kafkaWrite written ∈ call :: calls →
      .kafkaWrite written ∈ calls := by
    intro written hwritten
    rcases List.mem_cons.1 hwritten with rfl | hold
    · cases hcall
    · exact hold
  cases other with
  | failWrite id leaseToken errMsg permanent job =>
      exact ⟨hother.1, fun written hwritten => hother.2 written (hkept hwritten)⟩
  | fail id leaseToken errMsg permanent =>
      exact fun written hwritten => hother written (hkept hwritten)
  | _ => exact hother

theorem CallBudget.subset {table : JobTable} {calls fewer : List Call} {other : Call}
    (hother : CallBudget table calls other) (hsubset : fewer ⊆ calls) :
    CallBudget table fewer other := by
  cases other with
  | failWrite id leaseToken errMsg permanent job =>
      exact ⟨hother.1, fun written hwritten => hother.2 written (hsubset hwritten)⟩
  | fail id leaseToken errMsg permanent =>
      exact fun written hwritten => hother written (hsubset hwritten)
  | _ => exact hother

end Perform

theorem noLease_of_empty {table : JobTable} (htable : EmptyTable table) :
    NoLease table := by
  intro row hrow
  rw [htable] at hrow
  cases hrow

/-- The budget invariant holds in every reachable world. -/
theorem budgetInv {world : World}
    (hreach : (machine EmptyTable BudgetCalls).Reachable world) : BudgetInv world := by
  refine invariant_of_perform BudgetInv hreach ?_ ?_ ?_ ?_
  · intro table htable
    refine ⟨.init (noLease_of_empty htable), ⟨?_, fun id _ => rfl⟩, ?_⟩
    · intro row hrow
      rw [htable] at hrow
      cases hrow
    · intro call hcall
      cases hcall
  · intro world calls hcalls hinv
    refine ⟨hinv.fencing.subperm hcalls, hinv.rows, fun call hcall => ?_⟩
    exact (hinv.calls call (hcalls.subset hcall)).subset hcalls.subset
  · intro world env call hstarts hmay hinv
    refine ⟨hinv.fencing.issue hstarts hmay.1, hinv.rows, List.forall_mem_cons.2 ⟨?_, ?_⟩⟩
    · exact callBudget_of_starts hstarts hmay
    · intro other hother
      exact (hinv.calls other hother).cons hstarts.initial
  · intro world env call hmay hinv
    exact hinv.perform hmay

/-! ## The Postgres transport -/

/-- Job-table operations on the Postgres transport, where `ClaimNextJob` is the
only claim and failures are reported through `JobService.Fail`. -/
def PostgresCalls (world : World) (env : Env) (call : Call) : Prop :=
  LeaseCalls world env call ∧ UnforeseenToken world env call ∧
    match call with
    | .kafkaClaim .. | .kafkaWrite _ | .failClaimedJob .. => False
    | _ => True

def NotKafka : Call → Prop
  | .kafkaClaim .. | .kafkaWrite _ => False
  | _ => True

theorem notKafka_of_mem_calls {world : World}
    (hreach : (machine EmptyTable PostgresCalls).Reachable world) :
    ∀ call ∈ world.calls, NotKafka call := by
  refine invariant_of_perform (fun world => ∀ call ∈ world.calls, NotKafka call) hreach
    ?_ ?_ ?_ ?_
  · intro table _ call hcall
    cases hcall
  · intro world calls hcalls hinv call hcall
    exact hinv call (hcalls.subset hcall)
  · intro world env call _ hmay hinv
    refine List.forall_mem_cons.2 ⟨?_, hinv⟩
    have hallowed := hmay.2.2
    cases call with
    | kafkaClaim | kafkaWrite => exact hallowed
    | _ => trivial
  · intro world env call _ hinv
    refine forall_mem_calls_perform hinv ?_
    intro next hleads hcall
    cases hleads with
    | kafkaWrite message lease hclaims hread => exact hcall.elim
    | _ => trivial

theorem budgetCalls_of_postgresCalls {world : World} {env : Env} {call : Call}
    (hknown : ∀ other ∈ world.calls, NotKafka other)
    (hmay : PostgresCalls world env call) : BudgetCalls world env call := by
  obtain ⟨hlease, hunforeseen, hallowed⟩ := hmay
  refine ⟨hlease, hunforeseen, ?_⟩
  cases call with
  | fail id leaseToken errMsg permanent =>
      intro written hwritten
      exact False.elim (hknown _ hwritten)
  | kafkaWrite | failClaimedJob => exact False.elim hallowed
  | _ => trivial

/-- The retry budget on the Postgres transport: `attempt` counts the claims that
were not given back since creation or the last requeue, a pending job has an
attempt left, a running one is within its budget. -/
theorem retry_budget {world : World}
    (hreach : (machine EmptyTable PostgresCalls).Reachable world) {row : Row}
    (hmem : row ∈ world.jobs.rows) :
    1 ≤ row.taskMaxRetries ∧
      row.attempt = spentAttempts (eventsOf world.history row.id) ∧
      (row.state = .pending → row.attempt < row.taskMaxRetries) ∧
      (row.state = .running → 1 ≤ row.attempt ∧ row.attempt ≤ row.taskMaxRetries) ∧
      spentAttempts (eventsOf world.history row.id) ≤ row.taskMaxRetries := by
  have hbudget := budgetInv (reachable_mono NotKafka hreach (fun _ => notKafka_of_mem_calls)
    (fun _ htable => htable) fun _ _ _ => budgetCalls_of_postgresCalls)
  have hrow := hbudget.rows.present row hmem
  refine ⟨hrow.budget, hrow.attempt, hrow.pending, ?_, ?_⟩
  · intro hrunning
    exact ⟨hrow.running hrunning, hrow.bounded⟩
  · rw [← hrow.attempt]
    exact hrow.bounded

theorem unforeseenToken_claimedRun :
    UnforeseenToken emptyWorld (plainEnv 1 0 "job-1") (.enqueue plainJob) ∧
      UnforeseenToken (emptyWorld.perform (plainEnv 1 0 "job-1") (.enqueue plainJob))
        (plainEnv 1 minute "") (.claimNextJob minute ⟨anyTenant, [], []⟩) := by
  constructor
  · intro hmints
    cases hmints
  · intro _ other hother
    cases hother

theorem retry_budget_claimedRun :
    ((machine EmptyTable PostgresCalls).run emptyWorld claimedRun).jobs.rows.map Row.attempt =
        [1] ∧
      ∀ row ∈ ((machine EmptyTable PostgresCalls).run emptyWorld claimedRun).jobs.rows,
        row.state = .running → 1 ≤ row.attempt ∧ row.attempt ≤ row.taskMaxRetries := by
  have hstart : (machine EmptyTable PostgresCalls).Reachable emptyWorld :=
    .start ⟨rfl, rfl, rfl, rfl, rfl⟩
  have hreach := hstart.run (allowedRun_claimedRun
    ⟨⟨freshToken_claimedRun.1, fromCaller_plainJob⟩, unforeseenToken_claimedRun.1, trivial⟩
    ⟨⟨freshToken_claimedRun.2, trivial⟩, unforeseenToken_claimedRun.2, trivial⟩)
  constructor
  · decide +kernel
  · intro row hrow
    exact (retry_budget hreach hrow).2.2.2.1

end Conduit.RetryBudget
