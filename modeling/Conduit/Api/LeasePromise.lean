import Conduit.Api.Handlers
import Conduit.Jobs.StateChanges

/-!
# What a worker is told about its lease

A remote worker works on a job until the `lease_expires_at` of its latest response.
`ClaimJob` answers with the expiry that was stored.  `HeartbeatJob` stores one expiry and
reports another, from a second reading of the clock once the statement is done.  Time may
pass between any two of these, and every other caller may run.
-/

namespace Conduit.LeasePromise

open Models Relational JobStore JobService JobCalls
open JobMachine (World Starts FreshToken eq_of_init freshToken_of_not_mints plainEnv
  plainJob fromCaller_plainJob emptyWorld history_subset_step)
open LeaseFencing (TokenInv TokenCalls)
open ScheduleStore (schedules)
open StateChanges Transition Api

/-! ## The worker and the server -/

/-- The lease of a worker, by its latest response. -/
structure Promise where
  id : String
  leaseToken : String
  expiresAt : ℤ
  deriving DecidableEq

def Promise.ofClaim : Response → Option Promise
  | ⟨_, .claim job leaseToken expiresAt⟩ => some ⟨job.id, leaseToken, expiresAt⟩
  | _ => none

def Promise.extend (promise : Promise) : Response → Promise
  | ⟨_, .leaseExpiresAt expiresAt⟩ => { promise with expiresAt }
  | _ => promise

inductive Phase
  | idle
  | holding (promise : Promise)
  /-- The lease was renewed for `lease` from `now` on, and the worker is yet to hear of
  it. -/
  | renewed (promise : Promise) (now lease : ℤ)
  deriving DecidableEq

def Phase.promise : Phase → Option Promise
  | .idle => none
  | .holding promise | .renewed promise _ _ => some promise

/-- A heartbeat that went through hears of it. -/
def Phase.respond (context : Context) (now : ℤ) : Phase → Phase
  | .renewed promise _ lease =>
      .holding (promise.extend (heartbeatReply context now lease .done))
  | phase => phase

/-- A heartbeat that went through never hears of it. -/
def Phase.lose : Phase → Phase
  | .renewed promise _ _ => .holding promise
  | phase => phase

structure System where
  world : World
  /-- The latest reading of the clock that server and database share. -/
  clock : ℤ
  phase : Phase

inductive Label
  /-- A step of any other caller. -/
  | other (label : JobMachine.Label)
  | claim (env : Env) (body : ClaimRequest) (deadline : ℤ)
  /-- A heartbeat renews the lease. -/
  | heartbeat (env : Env) (leaseSeconds : ℤ)
  /-- Its response is built. -/
  | respond (now : ℤ)
  /-- Its response is lost. -/
  | lose
  /-- The worker is done with the job. -/
  | forget

/-- When a step of another caller runs its statement. -/
def instant : JobMachine.Label → Option ℤ
  | .issue env _ | .resume env _ => some env.dbNow
  | .drop _ => none

section Machine

variable (context : Context)

/-- What a claim promises. -/
def claimed (env : Env) (table : JobTable) (body : ClaimRequest) (deadline : ℤ) :
    Option Promise :=
  (attemptClaim context env ⟨table, Table.empty schedules⟩ body deadline).response.bind
    Promise.ofClaim

def System.step (system : System) : Label → System
  | .other label =>
      { system with
        world := system.world.step label
        clock := (instant label).getD system.clock }
  | .claim env body deadline =>
      { world := system.world.perform env (body.call context)
        clock := env.dbNow
        phase := match claimed context env system.world.jobs body deadline with
          | none => .idle
          | some promise => .holding promise }
  | .heartbeat env leaseSeconds =>
      match system.phase with
      | .holding promise =>
          let lease := context.lease leaseSeconds
          let call := Call.renewLease promise.id promise.leaseToken lease
          { world := system.world.perform env call
            clock := env.dbNow
            phase := if (call.effect env system.world.jobs).reply = some .done
              then .renewed promise env.storeNow lease else .holding promise }
      | _ => system
  | .respond now => { system with clock := now, phase := system.phase.respond context now }
  | .lose => { system with phase := system.phase.lose }
  | .forget => { system with phase := .idle }

/-- The clock does not go back, a statement reads it before it runs, and only the worker
renews its lease. -/
def machine : Machine System Label where
  Init system :=
    (JobMachine.machine AtRest TokenCalls).Init system.world ∧ system.phase = .idle
  Allowed system
    | .other label =>
        (JobMachine.machine AtRest TokenCalls).Allowed system.world label ∧
          (∀ now ∈ instant label, system.clock ≤ now) ∧
          ∀ promise ∈ system.phase.promise, ∀ id lease,
            runs system.world label ≠ some (.renewLease id promise.leaseToken lease)
    | .claim env body _ =>
        system.phase = .idle ∧ FreshToken system.world env (body.call context) ∧
          env.storeNow ≤ env.dbNow ∧ system.clock ≤ env.dbNow
    | .heartbeat env _ => env.storeNow ≤ env.dbNow ∧ system.clock ≤ env.dbNow
    | .respond now => system.clock ≤ now
    | _ => True
  step := System.step context

end Machine

/-- The row still carries the lease. -/
def Promise.Kept (promise : Promise) (row : Row) : Prop :=
  Statement.Holds promise.id promise.leaseToken row

/-- The worker was not told of a later expiry than the one stored for its claim, and so the
reaper does not take the job away before the instant the worker was told. -/
structure NotOverPromised (system : System) : Prop where
  stored : ∀ promise ∈ system.phase.promise, ∀ row ∈ system.world.jobs.rows,
    promise.Kept row →
      ∃ expiresAt ∈ row.leaseExpiresAt, promise.expiresAt ≤ expiresAt
  reaped : ∀ promise ∈ system.phase.promise, ∀ row ∈ system.world.jobs.rows,
    promise.Kept row → ∀ dbNow locked limit statement,
      requeueExpiredRunningStatement system.world.jobs dbNow locked limit = some statement →
        statement.Selects row → promise.expiresAt ≤ dbNow

/-- Where the lease is still there: a heartbeat does not shorten it, and its response is
built before the clock moves on, with the expiry a whole number of microseconds. -/
def Punctual (context : Context) (system : System) : Label → Prop
  | .heartbeat env leaseSeconds => ∀ promise, system.phase = .holding promise →
      (∃ row ∈ system.world.jobs.rows, promise.Kept row) →
        promise.expiresAt ≤ timestamptz (env.storeNow + context.lease leaseSeconds)
  | .respond now => ∀ promise storeNow lease, system.phase = .renewed promise storeNow lease →
      (∃ row ∈ system.world.jobs.rows, promise.Kept row) →
        now + lease ≤ timestamptz (storeNow + lease)
  | _ => True

/-! ## What becomes of a lease -/

section Rows

variable {world : World} {env : Env} {call : Call}

/-- Another caller leaves a row under a token it did not renew as it is. -/
theorem mem_of_perform (hinv : TokenInv { world with calls := call :: world.calls })
    (hfresh : FreshToken world env call) {id leaseToken : String}
    (hclaimed : .claimed id leaseToken ∈ world.history)
    (hrenews : ∀ id lease, call ≠ .renewLease id leaseToken lease) {row : Row}
    (hrow : row ∈ (world.perform env call).jobs.rows)
    (htoken : row.leaseToken = some leaseToken) : row ∈ world.jobs.rows := by
  have hgrants : ¬ Grants env call leaseToken := fun hgrants =>
    hinv.unclaimed_of_grants hfresh hgrants id hclaimed
  have hcall := hinv.calls call (List.mem_cons_self ..)
  cases leased_of_does (effect_does env world.jobs call) (fun job => hcall.inserts) hrow
    htoken with
  | kept hold => exact hold
  | renewed old hold hheld renewed lease expires dbNow hrenewed hset =>
      exact absurd hrenewed (hrenews renewed lease)
  | claimed hgrant hevent hstate => exact absurd hgrant hgrants

/-- A renewal either finds the row under the token and moves its expiry, or changes
nothing. -/
theorem renewLease_cases (env : Env) (table : JobTable) (id : String) {leaseToken : String}
    (lease : ℤ) (htoken : leaseToken ≠ "") :
    let effect := (Call.renewLease id leaseToken lease).effect env table
    let statement := Statement.renewLease id leaseToken (env.storeNow + lease) env.dbNow
    (∃ row ∈ table.rows, Statement.Holds id leaseToken row ∧
      effect.reply = some .done ∧ effect.table = table.exec statement.update) ∨
    (∀ row ∈ table.rows, ¬ Statement.Holds id leaseToken row) ∧
      effect.reply ≠ some .done ∧ effect.table = table := by
  intro effect statement
  have hstatement : renewLeaseStatement env.storeNow env.dbNow id leaseToken lease =
      some statement := if_neg htoken
  obtain ⟨-, hreply, htable⟩ := updateEffect_last env table
    (.renewLease id leaseToken lease) fun _ => rfl
  rw [Call.statement, hstatement] at htable
  rw [Call.answer, renewLease, hstatement] at hreply
  dsimp only at hreply
  rcases execOr_cases table statement .invalidTransition with
    ⟨row, hrow, hholds, hexec⟩ | ⟨hmissed, hexec⟩
  · rw [hexec] at hreply
    exact .inl ⟨row, hrow, hholds, hreply, htable⟩
  · rw [hexec] at hreply
    refine .inr ⟨hmissed, ?_, htable.trans (congrArg Prod.snd hexec)⟩
    change (Call.updateEffect ..).reply ≠ _
    rw [hreply]
    intro hdone
    cases hdone

/-- A claim promises what it stored. -/
theorem claimed_eq_some {context : Context} {env : Env} {table : JobTable}
    {body : ClaimRequest} {deadline : ℤ} {promise : Promise}
    (hclaimed : claimed context env table body deadline = some promise) :
    ∃ row ∈ table.rows,
      (claimNextJobStatement table env.storeNow env.dbNow (newLeaseToken env.random)
        env.locked (context.lease body.leaseSeconds)
        ⟨context.tenant, body.queues, body.names⟩).Selects row ∧
      promise = ⟨row.id, newLeaseToken env.random,
        timestamptz (env.storeNow + context.lease body.leaseSeconds)⟩ := by
  have hreply : ((body.call context).effect env table).reply = some (.ofJob
      (claimNextJob table env.storeNow env.dbNow (newLeaseToken env.random) env.locked
        (context.lease body.leaseSeconds) ⟨context.tenant, body.queues, body.names⟩).1) :=
    (updateEffect_last env table (body.call context) fun _ => rfl).2.1
  simp only [claimed, attemptClaim, hreply] at hclaimed
  rcases hanswer : (claimNextJob table env.storeNow env.dbNow (newLeaseToken env.random)
      env.locked (context.lease body.leaseSeconds)
      ⟨context.tenant, body.queues, body.names⟩).1 with err | job
  · rw [hanswer, Reply.ofJob] at hclaimed
    cases err <;> cases hclaimed
  · rw [hanswer] at hclaimed
    obtain ⟨row, hrow, hselects, rfl, -⟩ := exists_row_of_execReturning hanswer
    cases hclaimed
    exact ⟨row, hrow, hselects, rfl⟩

end Rows

/-! ## The invariant -/

structure PromiseInv (system : System) : Prop where
  states : StateInv system.world
  obtained : ∀ promise ∈ system.phase.promise, promise.leaseToken ≠ "" ∧
    .claimed promise.id promise.leaseToken ∈ system.world.history
  renewed : ∀ promise now lease, system.phase = .renewed promise now lease →
    ∀ row ∈ system.world.jobs.rows, promise.Kept row →
      row.leaseExpiresAt = some (timestamptz (now + lease))

section Step

variable {context : Context} {system : System}

theorem NotOverPromised.of_stored
    (hstored : ∀ promise ∈ system.phase.promise, ∀ row ∈ system.world.jobs.rows,
      promise.Kept row →
        ∃ expiresAt ∈ row.leaseExpiresAt, promise.expiresAt ≤ expiresAt) :
    NotOverPromised system := by
  refine ⟨hstored, ?_⟩
  intro promise hpromise row hrow hkept dbNow locked limit statement hstatement hselects
  obtain ⟨expiresAt, hexpiresAt, hle⟩ := hstored promise hpromise row hrow hkept
  obtain ⟨-, ⟨expires, hexpires, hpast⟩, -⟩ :=
    leaseExpired_of_selects hstatement hrow hselects
  cases hexpiresAt.symm.trans hexpires
  calc promise.expiresAt ≤ expiresAt := hle
    _ ≤ timestamptz dbNow := hpast
    _ ≤ dbNow := timestamptz_le dbNow

/-- Another caller either takes the lease away or leaves the row alone. -/
theorem PromiseInv.mem_of_other (hinv : PromiseInv system) {label : JobMachine.Label}
    (hallowed : (machine context).Allowed system (.other label)) {promise : Promise}
    (hpromise : promise ∈ system.phase.promise) {row : Row}
    (hrow : row ∈ (system.world.step label).jobs.rows) (hkept : promise.Kept row) :
    row ∈ system.world.jobs.rows := by
  obtain ⟨hstep, -, hrenews⟩ := hallowed
  rcases hinv.states.runs_cases (fun _ _ _ hmay => hmay) hstep with ⟨-, hjobs, -⟩ |
    ⟨env, call, rest, hruns, hjobs, hhistory, hfresh, hrest, heq⟩
  · exact hjobs ▸ hrow
  · rw [heq] at hrow
    rw [← hjobs]
    have hclaimed := (hinv.obtained promise hpromise).2
    rw [← hhistory] at hclaimed
    refine mem_of_perform hrest.tokens hfresh hclaimed ?_ hrow hkept.2.2
    rintro id lease rfl
    exact hrenews promise hpromise id lease hruns

/-! ### The invariant is kept -/

theorem Phase.promise_lose (phase : Phase) : phase.lose.promise = phase.promise := by
  cases phase <;> rfl

theorem PromiseInv.other (hinv : PromiseInv system) {label : JobMachine.Label}
    (hallowed : (machine context).Allowed system (.other label)) :
    PromiseInv (system.step context (.other label)) := by
  refine ⟨hinv.states.step (fun _ _ _ hmay => hmay) hallowed.1, ?_, ?_⟩
  · intro promise hpromise
    refine (hinv.obtained promise hpromise).imp_right fun hclaimed => ?_
    exact history_subset_step hclaimed
  · intro promise now lease hphase row hrow hkept
    have hpromise : promise ∈ system.phase.promise := by
      change system.phase = _ at hphase
      rw [hphase]
      rfl
    exact hinv.renewed promise now lease hphase row
      (hinv.mem_of_other hallowed hpromise hrow hkept) hkept

theorem PromiseInv.claim (hinv : PromiseInv system) {env : Env} {body : ClaimRequest}
    {deadline : ℤ} (hallowed : (machine context).Allowed system (.claim env body deadline)) :
    PromiseInv (system.step context (.claim env body deadline)) := by
  have hstarts : Starts system.world (body.call context) :=
    ⟨rfl, fun message lease heq => by cases heq⟩
  refine ⟨hinv.states.call hstarts ⟨hallowed.2.1, trivial⟩, ?_, ?_⟩
  · intro promise hpromise
    rw [System.step] at hpromise ⊢
    dsimp only at hpromise ⊢
    rcases hclaimed : LeasePromise.claimed context env system.world.jobs body deadline with
      _ | granted
    · rw [hclaimed] at hpromise
      cases hpromise
    · rw [hclaimed] at hpromise
      cases hpromise
      obtain ⟨row, hrow, hselects, rfl⟩ := claimed_eq_some hclaimed
      refine ⟨newLeaseToken_ne_empty _, List.mem_append_left _ ?_⟩
      exact List.mem_flatMap.2 ⟨row, Table.mem_affected.2 ⟨hrow, hselects⟩,
        List.mem_singleton_self _⟩
  · intro promise now lease hphase
    rw [System.step] at hphase
    dsimp only at hphase
    split at hphase <;> cases hphase

/-- The rows under a lease after its renewal. -/
theorem Promise.expires_of_renewed {promise : Promise} {table : JobTable} {row : Row}
    {expires dbNow : ℤ} (hrow : row ∈ (table.exec
      (Statement.renewLease promise.id promise.leaseToken expires dbNow).update).rows)
    (hkept : promise.Kept row) : row.leaseExpiresAt = some (timestamptz expires) := by
  obtain ⟨old, hold, rfl⟩ := Table.mem_exec.1 hrow
  by_cases hselects : (Statement.renewLease promise.id promise.leaseToken expires
      dbNow).update.selects old
  · rw [if_pos hselects]
    rfl
  · rw [if_neg hselects] at hkept
    exact absurd hkept hselects

/-- The statement of a heartbeat finds the lease or does not. -/
theorem heartbeat_cases (context : Context) {promise : Promise}
    (hphase : system.phase = .holding promise)
    (htoken : promise.leaseToken ≠ "") (env : Env) (leaseSeconds : ℤ) :
    let lease := context.lease leaseSeconds
    let after := system.step context (.heartbeat env leaseSeconds)
    (∃ row ∈ system.world.jobs.rows, promise.Kept row ∧
      after.phase = .renewed promise env.storeNow lease ∧
      after.world.jobs = system.world.jobs.exec (Statement.renewLease promise.id
        promise.leaseToken (env.storeNow + lease) env.dbNow).update) ∨
    (∀ row ∈ system.world.jobs.rows, ¬ promise.Kept row) ∧
      after.phase = .holding promise ∧ after.world.jobs = system.world.jobs := by
  intro lease after
  have hafter : after = system.step context (.heartbeat env leaseSeconds) := rfl
  rw [System.step, hphase] at hafter
  dsimp only at hafter
  rcases renewLease_cases env system.world.jobs promise.id lease htoken with
    ⟨row, hrow, hkept, hreply, htable⟩ | ⟨hlost, hreply, htable⟩
  · rw [if_pos hreply] at hafter
    rw [hafter]
    exact .inl ⟨row, hrow, hkept, rfl, htable⟩
  · rw [if_neg hreply] at hafter
    rw [hafter]
    exact .inr ⟨hlost, rfl, htable⟩

/-- Without a lease, or with a heartbeat under way, there is nothing to renew. -/
theorem step_heartbeat_of_not_holding (hphase : ∀ promise, system.phase ≠ .holding promise)
    (env : Env) (leaseSeconds : ℤ) :
    system.step context (.heartbeat env leaseSeconds) = system := by
  rw [System.step]
  split
  case h_1 promise hholding => exact absurd hholding (hphase promise)
  case h_2 => rfl

theorem PromiseInv.heartbeat (hinv : PromiseInv system) (env : Env) (leaseSeconds : ℤ) :
    PromiseInv (system.step context (.heartbeat env leaseSeconds)) := by
  by_cases hholding : ∃ promise, system.phase = .holding promise
  · obtain ⟨promise, hphase⟩ := hholding
    obtain ⟨htoken, hclaimed⟩ := hinv.obtained promise (by rw [hphase]; rfl)
    have hworld : (system.step context (.heartbeat env leaseSeconds)).world =
        system.world.perform env
          (.renewLease promise.id promise.leaseToken (context.lease leaseSeconds)) := by
      rw [System.step, hphase]
    have hcases := heartbeat_cases context hphase htoken env leaseSeconds
    refine ⟨?_, ?_, ?_⟩
    · rw [hworld]
      exact hinv.states.call (.of_not_mints rfl rfl) ⟨freshToken_of_not_mints rfl, trivial⟩
    · intro other hother
      obtain rfl : other = promise := by
        rcases hcases with ⟨-, -, -, hafter, -⟩ | ⟨-, hafter, -⟩ <;>
        · rw [hafter] at hother
          cases hother
          rfl
      rw [hworld]
      exact ⟨htoken, List.mem_append_right _ hclaimed⟩
    · intro other now lease hother row hrow hkept
      rcases hcases with ⟨-, -, -, hafter, hjobs⟩ | ⟨-, hafter, -⟩
      · rw [hafter] at hother
        cases hother
        rw [hjobs] at hrow
        exact Promise.expires_of_renewed hrow hkept
      · rw [hafter] at hother
        cases hother
  · rw [step_heartbeat_of_not_holding (not_exists.1 hholding)]
    exact hinv

theorem PromiseInv.respond (hinv : PromiseInv system) (now : ℤ) :
    PromiseInv (system.step context (.respond now)) := by
  refine ⟨hinv.states, ?_, ?_⟩
  · intro told htold
    change told ∈ (system.phase.respond context now).promise at htold
    rcases hphase : system.phase with _ | promise | ⟨promise, storeNow, lease⟩
    · rw [hphase] at htold
      cases htold
    · rw [hphase] at htold
      exact hinv.obtained told (by rw [hphase]; exact htold)
    · rw [hphase] at htold
      cases htold
      exact hinv.obtained promise (by rw [hphase]; rfl)
  · intro promise storeNow lease hphase
    change system.phase.respond context now = _ at hphase
    generalize system.phase = phase at hphase
    cases phase <;> cases hphase

theorem PromiseInv.lose (hinv : PromiseInv system) :
    PromiseInv (system.step context .lose) := by
  refine ⟨hinv.states, ?_, ?_⟩
  · intro promise hpromise
    change promise ∈ system.phase.lose.promise at hpromise
    rw [Phase.promise_lose] at hpromise
    exact hinv.obtained promise hpromise
  · intro promise storeNow lease hphase
    change system.phase.lose = _ at hphase
    generalize system.phase = phase at hphase
    cases phase <;> cases hphase

theorem PromiseInv.step (hinv : PromiseInv system) {label : Label}
    (hallowed : (machine context).Allowed system label) :
    PromiseInv (system.step context label) := by
  cases label with
  | other label => exact hinv.other hallowed
  | claim env body deadline => exact hinv.claim hallowed
  | heartbeat env leaseSeconds => exact hinv.heartbeat env leaseSeconds
  | respond now => exact hinv.respond now
  | lose => exact hinv.lose
  | forget =>
      refine ⟨hinv.states, ?_, ?_⟩
      · intro promise hpromise
        cases hpromise
      · intro promise now lease hphase
        cases hphase

/-! ### When a step over-promises -/

theorem NotOverPromised.claim (env : Env) (body : ClaimRequest) (deadline : ℤ) :
    NotOverPromised (system.step context (.claim env body deadline)) := by
  apply NotOverPromised.of_stored
  intro promise hpromise later hlater hkept
  rw [System.step] at hpromise hlater
  dsimp only at hpromise hlater
  rcases hclaimed : LeasePromise.claimed context env system.world.jobs body deadline with
    _ | granted
  · rw [hclaimed] at hpromise
    cases hpromise
  · rw [hclaimed] at hpromise
    cases hpromise
    obtain ⟨row, hrow, hselects, rfl⟩ := claimed_eq_some hclaimed
    obtain ⟨old, hold, rfl⟩ := Table.mem_exec.1 hlater
    by_cases hupdated : (claimNextJobStatement system.world.jobs env.storeNow env.dbNow
        (newLeaseToken env.random) env.locked (context.lease body.leaseSeconds)
        ⟨context.tenant, body.queues, body.names⟩).update.selects old
    · rw [if_pos hupdated]
      exact ⟨_, rfl, le_rfl⟩
    · rw [if_neg hupdated] at hkept
      rw [system.world.jobs.key_unique hold hrow hkept.1] at hupdated
      exact absurd hselects hupdated

/-- A heartbeat that renews the lease is punctual where it does not shorten it. -/
theorem notOverPromised_renewed_iff {promise : Promise} {after : System} {row : Row}
    {storeNow lease dbNow : ℤ} (hrow : row ∈ system.world.jobs.rows)
    (hkept : promise.Kept row) (hafter : after.phase = .renewed promise storeNow lease)
    (hjobs : after.world.jobs = system.world.jobs.exec (Statement.renewLease promise.id
      promise.leaseToken (storeNow + lease) dbNow).update) :
    NotOverPromised after ↔ promise.expiresAt ≤ timestamptz (storeNow + lease) := by
  constructor
  · intro hkeeps
    -- The row whose lease was renewed.
    have hrenewed : (Statement.renewLease promise.id promise.leaseToken (storeNow + lease)
        dbNow).set row ∈ after.world.jobs.rows := by
      rw [hjobs]
      exact Table.mem_exec.2 ⟨row, hrow, if_pos hkept⟩
    obtain ⟨expiresAt, hexpiresAt, hle⟩ :=
      hkeeps.stored promise (by rw [hafter]; rfl) _ hrenewed hkept
    cases hexpiresAt
    exact hle
  · intro hle
    apply NotOverPromised.of_stored
    intro other hother later hlater hlaterKept
    rw [hafter] at hother
    cases hother
    rw [hjobs] at hlater
    exact ⟨_, Promise.expires_of_renewed hlater hlaterKept, hle⟩

theorem PromiseInv.heartbeat_iff (hinv : PromiseInv system) (hgood : NotOverPromised system)
    (env : Env) (leaseSeconds : ℤ) :
    NotOverPromised (system.step context (.heartbeat env leaseSeconds)) ↔
      Punctual context system (.heartbeat env leaseSeconds) := by
  by_cases hholding : ∃ promise, system.phase = .holding promise
  · obtain ⟨promise, hphase⟩ := hholding
    obtain ⟨htoken, -⟩ := hinv.obtained promise (by rw [hphase]; rfl)
    have hsame : ∀ other, system.phase = .holding other → other = promise :=
      fun other hother => Phase.holding.inj (hother.symm.trans hphase)
    rcases heartbeat_cases context hphase htoken env leaseSeconds with
      ⟨row, hrow, hkept, hafter, hjobs⟩ | ⟨hlost, hafter, hjobs⟩
    · rw [notOverPromised_renewed_iff hrow hkept hafter hjobs]
      constructor
      · intro hle other hother _
        rw [hsame other hother]
        exact hle
      · intro hpunctual
        exact hpunctual promise hphase ⟨row, hrow, hkept⟩
    · refine iff_of_true (NotOverPromised.of_stored ?_) ?_
      · intro other hother later hlater hlaterKept
        rw [hafter] at hother
        cases hother
        rw [hjobs] at hlater
        exact absurd hlaterKept (hlost later hlater)
      · rintro other hother ⟨row, hrow, hrowKept⟩
        rw [hsame other hother] at hrowKept
        exact absurd hrowKept (hlost row hrow)
  · rw [step_heartbeat_of_not_holding (not_exists.1 hholding)]
    refine iff_of_true hgood ?_
    intro promise hphase
    exact absurd ⟨promise, hphase⟩ hholding

theorem PromiseInv.respond_iff (hinv : PromiseInv system) (hgood : NotOverPromised system)
    (now : ℤ) :
    NotOverPromised (system.step context (.respond now)) ↔
      Punctual context system (.respond now) := by
  rcases hphase : system.phase with _ | promise | ⟨promise, storeNow, lease⟩
  · refine iff_of_true (.of_stored ?_) ?_
    · intro told htold
      change told ∈ (system.phase.respond context now).promise at htold
      rw [hphase] at htold
      cases htold
    · intro other storeNow lease hother
      rw [hphase] at hother
      cases hother
  · refine iff_of_true (.of_stored ?_) ?_
    · intro told htold
      change told ∈ (system.phase.respond context now).promise at htold
      rw [hphase] at htold
      exact hgood.stored told (by rw [hphase]; exact htold)
    · intro other storeNow lease hother
      rw [hphase] at hother
      cases hother
  · have hphase' : (system.step context (.respond now)).phase =
        .holding { promise with expiresAt := now + lease } := by
      change system.phase.respond context now = _
      rw [hphase]
      rfl
    constructor
    · rintro hkeeps other _ _ hother ⟨row, hrow, hkept⟩
      rw [hphase] at hother
      cases hother
      obtain ⟨expiresAt, hexpiresAt, hle⟩ :=
        hkeeps.stored { promise with expiresAt := now + lease } (by rw [hphase']; rfl) row
          hrow hkept
      have hstored := hinv.renewed promise storeNow lease hphase row hrow hkept
      cases hstored.symm.trans hexpiresAt
      exact hle
    · intro hpunctual
      apply NotOverPromised.of_stored
      intro told htold row hrow hkept
      rw [hphase'] at htold
      cases htold
      exact ⟨_, hinv.renewed promise storeNow lease hphase row hrow hkept,
        hpunctual promise storeNow lease hphase ⟨row, hrow, hkept⟩⟩

theorem PromiseInv.step_iff (hinv : PromiseInv system) {label : Label}
    (hallowed : (machine context).Allowed system label) (hgood : NotOverPromised system) :
    NotOverPromised (system.step context label) ↔ Punctual context system label := by
  cases label with
  | other label =>
      refine iff_of_true (.of_stored ?_) trivial
      intro promise hpromise row hrow hkept
      exact hgood.stored promise hpromise row
        (hinv.mem_of_other hallowed hpromise hrow hkept) hkept
  | claim env body deadline => exact iff_of_true (.claim env body deadline) trivial
  | heartbeat env leaseSeconds => exact hinv.heartbeat_iff hgood env leaseSeconds
  | respond now => exact hinv.respond_iff hgood now
  | lose =>
      refine iff_of_true (.of_stored ?_) trivial
      intro promise hpromise
      change promise ∈ system.phase.lose.promise at hpromise
      rw [Phase.promise_lose] at hpromise
      exact hgood.stored promise hpromise
  | forget =>
      refine iff_of_true (.of_stored ?_) trivial
      intro promise hpromise
      cases hpromise

end Step

/-! ## Runs -/

theorem promiseInv_init {context : Context} {system : System}
    (hinit : (machine context).Init system) : PromiseInv system := by
  obtain ⟨world, clock, phase⟩ := system
  obtain ⟨hworld, rfl⟩ := hinit
  have hempty : world = ⟨world.jobs, [], [], [], []⟩ := eq_of_init hworld
  rw [hempty]
  refine ⟨.init hworld.1, ?_, ?_⟩
  · intro promise hpromise
    cases hpromise
  · intro promise now lease hphase
    cases hphase

theorem promiseInv {context : Context} {system : System}
    (hreach : (machine context).Reachable system) : PromiseInv system :=
  hreach.invariant PromiseInv (fun _ => promiseInv_init)
    fun _ _ _ hallowed hinv => hinv.step hallowed

/-- A worker is not over-promised its lease, throughout a run, exactly when each heartbeat
that finds the lease does not shorten it and is answered at the very instant it was
renewed for. -/
theorem not_over_promised_iff {context : Context} {system : System} {labels : List Label}
    (hinit : (machine context).Init system)
    (hallowed : (machine context).AllowedRun system labels) :
    (machine context).Always NotOverPromised system labels ↔
      ((machine context).restrict (Punctual context)).AllowedRun system labels := by
  refine Machine.always_iff_restrict NotOverPromised ?_ (.start hinit) ?_ hallowed
  · intro before label hreach hstep hgood
    exact (promiseInv hreach).step_iff hstep hgood
  · apply NotOverPromised.of_stored
    intro promise hpromise
    rw [hinit.2] at hpromise
    cases hpromise

/-! ## A late answer -/

/-- A server without API keys that grants five minutes at most. -/
def openContext : Context where
  server := {
    lease := 5 * minute, maxClaimWait := 0, apiKeys := [], hashKey _ := []
    collate _ _ := true, quote := String.ofList }
  tenant := "default"
  requestID := "r-1"

def emptySystem : System := ⟨emptyWorld, 0, .idle⟩

/-- A job is claimed for a minute, and after that minute for another. -/
def heartbeatRun : List Label :=
  [.other (.issue (plainEnv 1 0 "job-1") (.enqueue plainJob)),
    .claim (plainEnv 1 minute "") ⟨[], [], 60, 0⟩ minute,
    .heartbeat (plainEnv 1 (2 * minute) "") 60]

/-- What the worker is told when the answer is built at `now`. -/
def promiseAt (now : ℤ) : Promise :=
  ⟨"job-1", newLeaseToken fun _ => 1, now + minute⟩

theorem init_emptySystem : (machine openContext).Init emptySystem :=
  ⟨⟨atRest_empty, rfl, rfl, rfl, rfl⟩, rfl⟩

theorem allowedRun_heartbeatRun {now : ℤ} (hnow : 2 * minute ≤ now) :
    (machine openContext).AllowedRun emptySystem (heartbeatRun ++ [.respond now]) := by
  refine ⟨⟨⟨.of_not_mints rfl rfl, freshToken_of_not_mints rfl, fromCaller_plainJob⟩, ?_, ?_⟩,
    ⟨rfl, ?_, le_rfl, by decide⟩, ⟨le_rfl, by decide⟩, hnow, trivial⟩
  · intro instant hinstant
    cases hinstant
    exact le_rfl
  · intro promise hpromise
    cases hpromise
  · intro _
    decide +kernel

theorem not_over_promised_heartbeatRun :
    (machine openContext).Always NotOverPromised emptySystem
      (heartbeatRun ++ [.respond (2 * minute)]) := by
  have hallowed := allowedRun_heartbeatRun (le_refl (2 * minute))
  refine (not_over_promised_iff init_emptySystem hallowed).2 ⟨⟨hallowed.1, trivial⟩,
    ⟨hallowed.2.1, trivial⟩, ⟨hallowed.2.2.1, ?_⟩, ⟨hallowed.2.2.2.1, ?_⟩, trivial⟩
  · intro promise hphase _
    have hclaimed : ((machine openContext).run emptySystem (heartbeatRun.take 2)).phase =
        .holding (promiseAt minute) := by
      decide +kernel
    rw [← Phase.holding.inj (hclaimed.symm.trans hphase)]
    decide
  · intro promise storeNow lease hphase _
    have hrenewed : ((machine openContext).run emptySystem heartbeatRun).phase =
        .renewed (promiseAt minute) (2 * minute) minute := by
      decide +kernel
    obtain ⟨-, hstoreNow, hlease⟩ := Phase.renewed.inj (hrenewed.symm.trans hphase)
    rw [← hstoreNow, ← hlease]
    decide

/-- An answer that is a second late promises a second too much. -/
theorem not_forall_not_over_promised :
    ¬ ∀ context system labels, (machine context).Init system →
      (machine context).AllowedRun system labels →
        (machine context).Always NotOverPromised system labels := by
  intro hall
  have hpromised := (hall openContext emptySystem
    (heartbeatRun ++ [.respond (2 * minute + second)]) init_emptySystem
    (allowedRun_heartbeatRun (by decide))).last
  have htold : ((machine openContext).run emptySystem
      (heartbeatRun ++ [.respond (2 * minute + second)])).phase.promise =
      some (promiseAt (2 * minute + second)) := by
    decide +kernel
  have hstored : ∃ row ∈ ((machine openContext).run emptySystem
      (heartbeatRun ++ [.respond (2 * minute + second)])).world.jobs.rows,
      Statement.Holds "job-1" (newLeaseToken fun _ => 1) row ∧
        row.leaseExpiresAt = some (3 * minute) := by
    decide +kernel
  obtain ⟨row, hrow, hkept, hexpires⟩ := hstored
  obtain ⟨expiresAt, hexpiresAt, hle⟩ := hpromised.stored _ htold row hrow hkept
  cases hexpires.symm.trans hexpiresAt
  exact absurd hle (by decide)

end Conduit.LeasePromise
