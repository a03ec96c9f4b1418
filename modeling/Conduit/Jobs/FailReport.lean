import Conduit.Jobs.Tokens

/-!
# Reporting a failure

`JobService.Fail` reads the job, decides on what it read whether and when to retry, and
writes the decision in a second statement.  Anything may run in between, and the answer
is put together by hand from the earlier read.  The write goes through only for the
holder of the token, and a row keeps everything `Fail` looked at for as long as it keeps
the token.
-/

namespace Conduit.FailReport

open Models Relational JobStore JobService JobCalls JobMachine LeaseFencing Transition

/-- A claim was granted with the token. -/
def Obtained (history : List Event) (leaseToken : String) : Prop :=
  ∃ id, .claimed id leaseToken ∈ history

/-- Every job-table operation; who reports a failure with the token obtained it from a
claim. -/
def FailCalls (leaseToken : String) (world : World) (env : Env) (call : Call) : Prop :=
  TokenCalls world env call ∧
    match call with
    | .fail _ token _ _ => token = leaseToken → Obtained world.history leaseToken
    | _ => True

/-! ## What the outcome should be -/

/-- The retry policy, told by a row. -/
def BudgetLeft (engine : RetryEngine) (row : Row) : Prop :=
  if 0 < row.taskMaxRetries then row.attempt < row.taskMaxRetries
  else engine.shouldRetry row.attempt = true

/-- What becomes of a row whose job failed. -/
structure Decided (env : Env) (delayOf : ℤ → ℤ) (permanent : Bool) (row stored : Row) :
    Prop where
  retried : permanent = false ∧ BudgetLeft env.engine row →
    stored.state = .pending ∧
      stored.scheduledAt = some (timestamptz (env.now + delayOf row.attempt))
  buried : ¬ (permanent = false ∧ BudgetLeft env.engine row) →
    stored.state = .dead ∧ stored.scheduledAt = row.scheduledAt

/-- The job a caller is handed and the row agree, the instants to a microsecond. -/
structure Agrees (returned : Job) (stored : Row) : Prop where
  id : returned.id = stored.id
  state : returned.state = stored.state
  attempt : returned.attempt = stored.attempt
  lastError : returned.lastError = stored.lastError
  scheduledAt : returned.scheduledAt.map timestamptz = stored.scheduledAt.map timestamptz
  leaseToken : returned.leaseToken = "" ∧ stored.leaseToken = none
  leaseExpiresAt : returned.leaseExpiresAt = none ∧ stored.leaseExpiresAt = none
  startedAt : returned.startedAt = none ∧ stored.startedAt = none

/-! ## The invariant -/

/-- What is known of a `Fail` with the token before and after its read. -/
def CallRead (leaseToken : String) (table : JobTable) (history : List Event) : Call → Prop
  | .fail _ token _ _ => token = leaseToken → Obtained history leaseToken
  | .failWrite id token _ _ job => token = leaseToken → Obtained history leaseToken ∧
      ∀ row ∈ table.rows, row.id = id → row.leaseToken = some leaseToken → ReadOf job row
  | _ => True

structure FailInv (leaseToken : String) (world : World) : Prop where
  tokens : TokenInv world
  calls : ∀ call ∈ world.calls, CallRead leaseToken world.jobs world.history call

section Perform

variable {leaseToken : String} {world : World} {env : Env} {call : Call}

/-- A token that was obtained before is not granted again. -/
theorem FailInv.not_grants (hinv : FailInv leaseToken { world with calls := call :: world.calls })
    (hfresh : FreshToken world env call)
    (hobtained : Obtained world.history leaseToken) : ¬ Grants env call leaseToken := by
  intro hgrants
  obtain ⟨id, hclaimed⟩ := hobtained
  exact hinv.tokens.unclaimed_of_grants hfresh hgrants id hclaimed

theorem Obtained.perform (hobtained : Obtained world.history leaseToken) :
    Obtained (world.perform env call).history leaseToken :=
  hobtained.imp fun _ hclaimed => List.mem_append_right _ hclaimed

theorem FailInv.callRead_of_leads {next : Call}
    (hinv : FailInv leaseToken { world with calls := call :: world.calls })
    (hleads : Call.Leads env world.jobs call next) :
    CallRead leaseToken (world.perform env call).jobs (world.perform env call).history next := by
  have hcall := hinv.calls call (List.mem_cons_self ..)
  cases hleads with
  | failWrite id token errMsg permanent job hread =>
      refine fun htoken => ⟨Obtained.perform (hcall htoken), ?_⟩
      intro row hrow hid _
      have hsame : (world.perform env (.fail id token errMsg permanent)).jobs =
          world.jobs := by
        change (readEffect ..).table = world.jobs
        rw [hread]
        rfl
      rw [hsame] at hrow
      obtain ⟨found, hfound, hfoundID, -, rfl⟩ := getJob_eq_ok hread
      rw [world.jobs.key_unique hrow hfound (hid.trans hfoundID.symm)]
      rfl
  | _ => trivial

theorem FailInv.callRead_of_mem {other : Call}
    (hinv : FailInv leaseToken { world with calls := call :: world.calls })
    (hfresh : FreshToken world env call) (hother : other ∈ world.calls) :
    CallRead leaseToken (world.perform env call).jobs (world.perform env call).history other := by
  have hbefore := hinv.calls other (List.mem_cons_of_mem _ hother)
  cases other with
  | fail => exact fun htoken => Obtained.perform (hbefore htoken)
  | failWrite id token errMsg permanent job =>
      intro htoken
      obtain ⟨hobtained, hread⟩ := hbefore htoken
      refine ⟨hobtained.perform, ?_⟩
      have hcall := hinv.tokens.calls call (List.mem_cons_self ..)
      exact readOf_of_does hread (hinv.not_grants hfresh hobtained)
        (fun created hinserts => hcall.inserts hinserts) (effect_does env world.jobs call)
  | _ => trivial

theorem FailInv.perform (hinv : FailInv leaseToken { world with calls := call :: world.calls })
    (hfresh : FreshToken world env call) : FailInv leaseToken (world.perform env call) where
  tokens := hinv.tokens.perform hfresh
  calls other hother := by
    rcases mem_calls_perform hother with hleads | hold
    · exact hinv.callRead_of_leads hleads
    · exact hinv.callRead_of_mem hfresh hold

theorem callRead_of_initial (hinitial : call.continues = false)
    (hmay : FailCalls leaseToken world env call) :
    CallRead leaseToken world.jobs world.history call := by
  have hobtained := hmay.2
  cases call with
  | fail => exact hobtained
  | failWrite => cases hinitial
  | _ => trivial

end Perform

theorem failInv {leaseToken : String} {world : World}
    (hreach : (machine NoLease (FailCalls leaseToken)).Reachable world) :
    FailInv leaseToken world := by
  refine invariant_of_perform (FailInv leaseToken) hreach ?_ ?_ ?_ ?_
  · intro table htable
    exact ⟨.init htable, by simp⟩
  · intro world calls hcalls hinv
    exact ⟨hinv.tokens.subperm hcalls, fun call hcall =>
      hinv.calls call (hcalls.subset hcall)⟩
  · intro world env call hstarts hmay hinv
    exact ⟨hinv.tokens.issue hstarts.initial (callToken_of_starts hstarts hmay.1),
      List.forall_mem_cons.2 ⟨callRead_of_initial hstarts.initial hmay, hinv.calls⟩⟩
  · intro world env call hmay hinv
    exact hinv.perform hmay.1.1

/-! ## The write -/

section Write

variable {env : Env} {job : Job} {row : Row} {permanent : Bool}

theorem shouldRetry_iff (engine : RetryEngine) (hread : ReadOf job row) :
    shouldRetry engine job = true ↔ BudgetLeft engine row := by
  rw [shouldRetry, BudgetLeft, hread.attempt, hread.maxRetries]
  split
  · exact decide_eq_true_iff
  · exact Iff.rfl

/-- The decision taken on the read is the one the row calls for. -/
theorem decided_of_readOf {delayOf : ℤ → ℤ} (hread : ReadOf job row)
    (hdelay : env.delay = delayOf job.attempt) (id leaseToken errMsg : String) :
    Decided env delayOf permanent row
      ((Statement.failClaimedJob id leaseToken errMsg (failNextRun env job permanent)
        env.dbNow).set row) := by
  have hpolicy := shouldRetry_iff env.engine hread
  constructor
  · intro hbudget
    rw [← hpolicy] at hbudget
    rw [failNextRun, if_pos hbudget, hdelay, hread.attempt]
    exact ⟨rfl, rfl⟩
  · intro hspent
    rw [← hpolicy] at hspent
    rw [failNextRun, if_neg hspent]
    exact ⟨rfl, rfl⟩

theorem agrees_failedJob (hread : ReadOf job row) (id leaseToken errMsg : String)
    (nextRun : Option ℤ) (dbNow : ℤ) :
    Agrees (failedJob job errMsg nextRun)
      ((Statement.failClaimedJob id leaseToken errMsg nextRun dbNow).set row) := by
  refine ⟨?_, rfl, hread.attempt, rfl, ?_, ⟨rfl, rfl⟩, ⟨rfl, rfl⟩, ⟨rfl, rfl⟩⟩
  · change job.id = row.id
    rw [hread]
    rfl
  · cases nextRun with
    | none =>
        change job.scheduledAt.map timestamptz = row.scheduledAt.map timestamptz
        rw [hread]
        rfl
    | some instant =>
        change some (timestamptz instant) = some (timestamptz (timestamptz instant))
        rw [timestamptz_timestamptz]

/-- The write selects the row that holds the token, or nothing. -/
theorem failClaimedJob_cases (table : JobTable) (dbNow : ℤ) (id leaseToken errMsg : String)
    (nextRun : Option ℤ) :
    (∃ row ∈ table.rows, Statement.Holds id leaseToken row ∧
      failClaimedJob table dbNow id leaseToken errMsg nextRun = (.ok (), table.exec
        (Statement.failClaimedJob id leaseToken errMsg nextRun dbNow).update)) ∨
    ∃ err, failClaimedJob table dbNow id leaseToken errMsg nextRun = (.error err, table) := by
  by_cases hempty : leaseToken = ""
  · rw [failClaimedJob, failClaimedJobStatement, withToken, if_pos hempty]
    exact .inr ⟨_, rfl⟩
  rw [failClaimedJob, failClaimedJobStatement, withToken, if_neg hempty]
  exact (execOr_cases table (.failClaimedJob id leaseToken errMsg nextRun dbNow)
    .leaseLost).imp_right fun hlost => ⟨_, hlost.2⟩

/-- The second statement of `Fail` is `FailClaimedJob`, and its last. -/
theorem failWrite_effect (env : Env) (table : JobTable) (id leaseToken errMsg : String)
    (permanent : Bool) (job : Job) :
    let effect := (Call.failWrite id leaseToken errMsg permanent job).effect env table
    let nextRun := failNextRun env job permanent
    let written := failClaimedJob table env.dbNow id leaseToken errMsg nextRun
    effect.next = none ∧ effect.table = written.2 ∧
      effect.reply = some (match written.1 with
        | .ok _ => .job (failedJob job errMsg nextRun)
        | .error err => .error err) := by
  intro effect nextRun written
  obtain ⟨hnext, hreply, htable⟩ := updateEffect_last env table
    (.failWrite id leaseToken errMsg permanent job) fun _ => rfl
  refine ⟨hnext, htable.trans ?_, hreply⟩
  simp only [written, failClaimedJob, Call.statement, nextRun]
  rcases failClaimedJobStatement env.dbNow id leaseToken errMsg
    (failNextRun env job permanent) with _ | statement
  · rfl
  · rfl

theorem fail_run_table (env : Env) (table : JobTable) (id leaseToken errMsg : String)
    (permanent : Bool) :
    ((Call.fail id leaseToken errMsg permanent).run env 2 table).2 =
      match getJob table anyTenant id with
      | .error _ => table
      | .ok found => (failClaimedJob table env.dbNow id leaseToken errMsg
          (failNextRun env found permanent)).2 := by
  rw [Call.run]
  simp only [Call.effect, readEffect]
  rcases getJob table anyTenant id with err | found
  · rfl
  · obtain ⟨hnext, htable, -⟩ :=
      failWrite_effect env table id leaseToken errMsg permanent found
    simp only [Call.run, hnext, htable]

/-- A `Fail` interrupted between its statements leaves the table as one that runs
through at the moment of the write. -/
theorem failWrite_table {table : JobTable} {id leaseToken : String} (errMsg : String)
    (hread : ∀ row ∈ table.rows, row.id = id → row.leaseToken = some leaseToken →
      ReadOf job row) :
    ((Call.failWrite id leaseToken errMsg permanent job).effect env table).table =
      ((Call.fail id leaseToken errMsg permanent).run env 2 table).2 := by
  rw [(failWrite_effect ..).2.1, fail_run_table]
  by_cases hholder : ∃ row ∈ table.rows, Statement.Holds id leaseToken row
  · obtain ⟨row, hrow, hholds⟩ := hholder
    have hrowRead := hread row hrow hholds.1 hholds.2.2
    have hdecision : failNextRun env job permanent = failNextRun env (scanJob row) permanent := by
      rw [failNextRun, failNextRun, shouldRetry, hrowRead.attempt, hrowRead.maxRetries]
      rfl
    rw [← hholds.1, getJob_anyTenant hrow, hdecision]
  · have hlost : ∀ nextRun,
        (failClaimedJob table env.dbNow id leaseToken errMsg nextRun).2 = table := by
      intro nextRun
      rcases failClaimedJob_cases table env.dbNow id leaseToken errMsg nextRun with
        ⟨row, hrow, hholds, -⟩ | ⟨err, hwritten⟩
      · exact absurd ⟨row, hrow, hholds⟩ hholder
      · rw [hwritten]
    rw [hlost]
    split
    · rfl
    · rw [hlost]

end Write

/-- A failure reported with a token obtained from a claim takes effect as a whole at its
write, if that goes through, and otherwise not at all, whatever tokens other failures are
reported with.  `delayOf` is the retry engine's `Delay`, with the jitter it draws. -/
theorem fail_linearizable {leaseToken : String} {world : World}
    (hreach : (machine NoLease (FailCalls leaseToken)).Reachable world) (delayOf : ℤ → ℤ) :
    (∀ env id errMsg permanent job,
      .failWrite id leaseToken errMsg permanent job ∈ world.calls →
      env.delay = delayOf job.attempt →
      let effect := (Call.failWrite id leaseToken errMsg permanent job).effect env world.jobs
      effect.next = none ∧
        effect.table =
          ((Call.fail id leaseToken errMsg permanent).run env 2 world.jobs).2 ∧
        ((∃ row ∈ world.jobs.rows, ∃ stored ∈ effect.table.rows, ∃ returned,
            Statement.Holds id leaseToken row ∧ stored.id = id ∧
            job.attempt = row.attempt ∧ job.task.maxRetries = row.taskMaxRetries ∧
            Decided env delayOf permanent row stored ∧
            effect.reply = some (.job returned) ∧ Agrees returned stored) ∨
          (∃ err, effect.reply = some (.error err)) ∧ effect.table = world.jobs)) ∧
    ∀ env id leaseToken errMsg permanent,
      let effect := (Call.fail id leaseToken errMsg permanent).effect env world.jobs
      effect.table = world.jobs ∧
        ((∃ err, effect.reply = some (.error err) ∧ effect.next = none) ∨
          ∃ job, effect.next = some (.failWrite id leaseToken errMsg permanent job)) := by
  have hinv := failInv hreach
  constructor
  · intro env id errMsg permanent job hpending hdelay effect
    have hread := (hinv.calls _ hpending rfl).2
    obtain ⟨hnext, htable, hreply⟩ :=
      failWrite_effect env world.jobs id leaseToken errMsg permanent job
    refine ⟨hnext, failWrite_table errMsg hread, ?_⟩
    rcases failClaimedJob_cases world.jobs env.dbNow id leaseToken errMsg
      (failNextRun env job permanent) with ⟨row, hrow, hholds, hwritten⟩ | ⟨err, hwritten⟩
    · left
      rw [hwritten] at htable hreply
      have hrowRead := hread row hrow hholds.1 hholds.2.2
      refine ⟨row, hrow, _, ?_, _, hholds, ?_, hrowRead.attempt, hrowRead.maxRetries,
        decided_of_readOf hrowRead hdelay id leaseToken errMsg, hreply,
        agrees_failedJob hrowRead id leaseToken errMsg _ env.dbNow⟩
      · rw [htable]
        exact Table.mem_exec.2 ⟨row, hrow, if_pos hholds⟩
      · exact (Statement.set_id _ row).trans hholds.1
    · rw [hwritten] at htable hreply
      exact .inr ⟨⟨err, hreply⟩, htable⟩
  · intro env id leaseToken errMsg permanent
    simp only [Call.effect, readEffect]
    rcases hread : getJob world.jobs anyTenant id with err | job
    · exact ⟨rfl, .inl ⟨err, rfl, rfl⟩⟩
    · exact ⟨rfl, .inr ⟨job, rfl⟩⟩

def reportedToken : String :=
  newLeaseToken fun _ => 1

/-- A job is claimed, and its worker reports a failure. -/
def reportedRun : List Label :=
  claimedRun ++ [.issue (plainEnv 1 minute "") (.fail "job-1" reportedToken "boom" false)]

/-- The failure has been read. -/
def reportedWorld : World :=
  (machine NoLease (FailCalls reportedToken)).run emptyWorld reportedRun

/-- What the report has read of the job. -/
def reportedJob : Job :=
  match getJob reportedWorld.jobs anyTenant "job-1" with
  | .ok job => job
  | .error _ => plainJob

theorem reachable_reportedRun :
    (machine NoLease (FailCalls reportedToken)).Reachable reportedWorld := by
  have hempty : NoLease emptyWorld.jobs := fun row hrow => by cases hrow
  have hstart : (machine NoLease (FailCalls reportedToken)).Reachable emptyWorld :=
    .start ⟨hempty, rfl, rfl, rfl, rfl⟩
  have hclaimed := hstart.run (allowedRun_claimedRun
    ⟨⟨freshToken_claimedRun.1, fromCaller_plainJob⟩, trivial⟩
    ⟨⟨freshToken_claimedRun.2, trivial⟩, trivial⟩)
  refine hclaimed.next _
    ⟨.of_not_mints rfl rfl, ⟨freshToken_of_not_mints rfl, trivial⟩, fun _ => ⟨"job-1", ?_⟩⟩
  decide +kernel

theorem fail_linearizable_reportedRun :
    .failWrite "job-1" reportedToken "boom" false reportedJob ∈
        reportedWorld.calls ∧
      ∃ row ∈ reportedWorld.jobs.rows,
        ∃ stored returned, Decided (plainEnv 1 minute "") (fun _ => minute) false row stored ∧
          Agrees returned stored := by
  have hpending : .failWrite "job-1" reportedToken "boom" false reportedJob ∈
      reportedWorld.calls := by
    decide +kernel
  refine ⟨hpending, ?_⟩
  obtain ⟨-, -, hcases⟩ := (fail_linearizable reachable_reportedRun fun _ => minute).1
    (plainEnv 1 minute "") _ _ _ _ hpending rfl
  rcases hcases with ⟨row, hrow, stored, -, returned, -, -, -, -, hdecided, -, hagrees⟩ |
    ⟨-, htable⟩
  · exact ⟨row, hrow, stored, returned, hdecided, hagrees⟩
  · have hchanged := congrArg (fun table : JobTable => table.rows.map Row.state) htable
    exact absurd hchanged (by decide +kernel)

end Conduit.FailReport
