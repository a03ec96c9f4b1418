import Conduit.Core.LeasedQueue
import Conduit.Core.Refinement
import Conduit.Jobs.RetryBudget

/-!
# The job table is a leased queue

On the Postgres transport every statement of a caller is matched by moves of a
leased queue: a claim takes an item, a heartbeat extends the lease, a release gives
the item back, `Complete`, `Fail` and the lease reaper finish, retry, bury or expire
it.  A row stands for an item by its state, its attempt and budget, and the one of
`scheduled_at`, the lease columns and `completed_at` its state goes with.

Times are those of the rows, in whole microseconds.
-/

namespace Conduit.QueueRefinement

open Models Relational JobStore JobService JobCalls JobMachine LeaseFencing RowInvariant RetryBudget
open Transition

abbrev Item := LeasedQueue.Item String ℤ

abbrev Move := LeasedQueue.Move String ℤ

abbrev Queue := LeasedQueue.Queue String String String String ℤ

abbrev Action := LeasedQueue.Action String String String String ℤ

abbrev queueMachine := LeasedQueue.machine String String String String ℤ

/-! ## Rows and items -/

/-- The row stands for the item. -/
def Describes (row : Row) : Item → Prop
  | .waiting budget spent _ due => row.state = .pending ∧
      row.taskMaxRetries = (budget : ℕ) ∧ row.attempt = spent ∧ row.scheduledAt = some due
  | .held budget spent _ _ token expires => row.state = .running ∧
      row.taskMaxRetries = (budget : ℕ) ∧ row.attempt = spent ∧
      row.leaseToken = some token ∧ row.leaseExpiresAt = some expires
  | .finished budget spent _ since => row.state = .completed ∧
      row.taskMaxRetries = (budget : ℕ) ∧ row.attempt = spent ∧ row.completedAt = some since
  | .dead budget spent _ since => row.state = .dead ∧
      row.taskMaxRetries = (budget : ℕ) ∧ row.attempt = spent ∧ row.completedAt = some since

/-- The move a statement makes with each row it selects; `dbNow` is the clock the
claim query compares with.  `UpdateJob` claims for the Kafka worker only. -/
def moveOf (dbNow : ℤ) : Statement → Option Move
  | .claimNextJob _ _ expires token =>
      some (.take token (timestamptz dbNow) (timestamptz expires))
  | .updateJob .. => none
  | .renewLease _ token expires _ => some (.extend token (timestamptz expires))
  | .releaseClaim _ token _ nextRun _ => some (.giveBack token (timestamptz nextRun))
  | .completeClaimedJob _ token _ now => some (.finish token (timestamptz now))
  | .failClaimedJob _ token _ (some nextRun) _ => some (.retry token (timestamptz nextRun))
  | .failClaimedJob _ token _ none now => some (.bury token (timestamptz now))
  | .cancelJob _ _ now => some (.cancel (timestamptz now))
  | .requeueExpiredRunning _ now => some (.expire (timestamptz now))
  | .requeueDeadJob _ _ now => some (.revive (timestamptz now))

section Row

variable {row : Row} {item : Item}

theorem Describes.exists_waiting (hdescribes : Describes row item)
    (hstate : row.state = .pending) :
    ∃ budget spent hspent due, item = .waiting budget spent hspent due := by
  cases item with
  | waiting budget spent hspent due => exact ⟨budget, spent, hspent, due, rfl⟩
  | held | finished | dead => cases hstate.symm.trans hdescribes.1

theorem Describes.exists_held (hdescribes : Describes row item)
    (hstate : row.state = .running) :
    ∃ budget spent hpos hspent token expires,
      item = .held budget spent hpos hspent token expires := by
  cases item with
  | held budget spent hpos hspent token expires =>
      exact ⟨budget, spent, hpos, hspent, token, expires, rfl⟩
  | waiting | finished | dead => cases hstate.symm.trans hdescribes.1

theorem Describes.exists_dead (hdescribes : Describes row item) (hstate : row.state = .dead) :
    ∃ budget spent hspent since, item = .dead budget spent hspent since := by
  cases item with
  | dead budget spent hspent since => exact ⟨budget, spent, hspent, since, rfl⟩
  | waiting | held | finished => cases hstate.symm.trans hdescribes.1

/-- The item behind a row that answers to a token is held under it. -/
theorem Describes.exists_held_of_holds (hdescribes : Describes row item) {id token : String}
    (hholds : Statement.Holds id token row) :
    ∃ budget spent hpos hspent expires, item = .held budget spent hpos hspent token expires := by
  obtain ⟨budget, spent, hpos, hspent, held, expires, rfl⟩ :=
    hdescribes.exists_held hholds.2.1
  have htoken : held = token := Option.some.inj (hdescribes.2.2.2.1.symm.trans hholds.2.2)
  rw [htoken]
  exact ⟨budget, spent, hpos, hspent, expires, rfl⟩

/-- A statement makes its move with every row it selects.  The claim and the reaper
need what their own query checked, a retry that the budget is not spent. -/
theorem Describes.set {statement : Statement} {dbNow : ℤ} {move : Move}
    (hdescribes : Describes row item) (hmove : moveOf dbNow statement = some move)
    (hselects : statement.Selects row)
    (hclaim : ∀ selected now expires token,
      statement = .claimNextJob selected now expires token →
        row.state = .pending ∧ ∀ due ∈ row.scheduledAt, due ≤ timestamptz dbNow)
    (hexpired : ∀ expired now, statement = .requeueExpiredRunning expired now →
      row.state = .running ∧ ∃ expires ∈ row.leaseExpiresAt, expires ≤ timestamptz now)
    (hretry : ∀ id token errMsg instant now,
      statement = .failClaimedJob id token errMsg (some instant) now →
        row.attempt < row.taskMaxRetries) :
    item.Enabled move ∧ Describes (statement.set row) (item.apply move) := by
  cases statement with
  | claimNextJob selected now expires token =>
      cases hmove
      obtain ⟨hstate, hdue⟩ := hclaim selected now expires token rfl
      obtain ⟨budget, spent, hspent, due, rfl⟩ := hdescribes.exists_waiting hstate
      obtain ⟨-, hbudget, hattempt, hscheduled⟩ := hdescribes
      have hnext : row.attempt + 1 = (spent : ℤ) + 1 := congrArg (· + 1) hattempt
      exact ⟨hdue due hscheduled, rfl, hbudget, hnext, rfl, rfl⟩
  | updateJob => cases hmove
  | renewLease id token expires now =>
      cases hmove
      obtain ⟨budget, spent, hpos, hspent, old, rfl⟩ := hdescribes.exists_held_of_holds hselects
      obtain ⟨hstate, hbudget, hattempt, htoken, -⟩ := hdescribes
      exact ⟨rfl, hstate, hbudget, hattempt, htoken, rfl⟩
  | releaseClaim id token reason nextRun now =>
      cases hmove
      obtain ⟨budget, spent, hpos, hspent, old, rfl⟩ := hdescribes.exists_held_of_holds hselects
      obtain ⟨-, hbudget, hattempt, -⟩ := hdescribes
      refine ⟨rfl, rfl, hbudget, ?_, rfl⟩
      change max (row.attempt - 1) 0 = _
      omega
  | completeClaimedJob id token metadata now =>
      cases hmove
      obtain ⟨budget, spent, hpos, hspent, old, rfl⟩ := hdescribes.exists_held_of_holds hselects
      obtain ⟨-, hbudget, hattempt, -⟩ := hdescribes
      exact ⟨rfl, rfl, hbudget, hattempt, rfl⟩
  | failClaimedJob id token errMsg nextRun now =>
      obtain ⟨budget, spent, hpos, hspent, old, rfl⟩ := hdescribes.exists_held_of_holds hselects
      obtain ⟨-, hbudget, hattempt, -⟩ := hdescribes
      cases nextRun with
      | none =>
          cases hmove
          exact ⟨rfl, rfl, hbudget, hattempt, rfl⟩
      | some instant =>
          cases hmove
          have hleft : spent < budget := by
            have := hretry id token errMsg instant now rfl
            omega
          rw [LeasedQueue.Item.apply, dif_pos hleft]
          exact ⟨⟨rfl, hleft⟩, rfl, hbudget, hattempt, rfl⟩
  | cancelJob tenant id now =>
      cases hmove
      rcases hselects.2.2 with hstate | hstate | hstate
      · obtain ⟨budget, spent, hspent, due, rfl⟩ := hdescribes.exists_waiting hstate
        exact ⟨trivial, rfl, hdescribes.2.1, hdescribes.2.2.1, rfl⟩
      · obtain ⟨budget, spent, hpos, hspent, token, expires, rfl⟩ :=
          hdescribes.exists_held hstate
        exact ⟨trivial, rfl, hdescribes.2.1, hdescribes.2.2.1, rfl⟩
      · cases item <;> cases hstate.symm.trans hdescribes.1
  | requeueExpiredRunning expired now =>
      cases hmove
      obtain ⟨hstate, expires, hexpires, hover⟩ := hexpired expired now rfl
      obtain ⟨budget, spent, hpos, hspent, token, until', rfl⟩ := hdescribes.exists_held hstate
      obtain ⟨-, hbudget, hattempt, -, hlease⟩ := hdescribes
      have hsame : until' = expires := Option.some.inj (hlease.symm.trans hexpires)
      refine ⟨hsame ▸ hover, ?_⟩
      by_cases hleft : spent < budget
      · have hunspent : ¬ row.taskMaxRetries ≤ row.attempt := by omega
        rw [LeasedQueue.Item.apply, dif_pos hleft]
        exact ⟨if_neg hunspent, hbudget, hattempt, if_neg hunspent⟩
      · have hspentAll : row.taskMaxRetries ≤ row.attempt := by omega
        rw [LeasedQueue.Item.apply, dif_neg hleft]
        exact ⟨if_pos hspentAll, hbudget, hattempt, if_pos hspentAll⟩
  | requeueDeadJob tenant id now =>
      cases hmove
      obtain ⟨budget, spent, hspent, since, rfl⟩ := hdescribes.exists_dead hselects.2.1
      exact ⟨trivial, rfl, hdescribes.2.1, rfl, rfl⟩

end Row

/-! ## The actions of a call -/

/-- The job a call is about to insert. -/
def inserting : Call → Option Job
  | .enqueueInsert job => some job
  | .enqueue job =>
      if (withTenant job).idempotencyKey = "" then some (withTenant job) else none
  | _ => none

theorem inserting_eq_some {call : Call} {job : Job} :
    inserting call = some job ↔ call.Inserts job := by
  constructor
  · intro hinserting
    cases call with
    | enqueueInsert other => exact .inl (congrArg _ (Option.some.inj hinserting))
    | enqueue requested =>
        rw [inserting] at hinserting
        split at hinserting
        · rename_i hkey
          cases hinserting
          exact .inr ⟨requested, rfl, rfl, hkey⟩
        · cases hinserting
    | _ => cases hinserting
  · rintro (rfl | ⟨requested, rfl, rfl, hkey⟩)
    · rfl
    · exact if_pos hkey

/-- The budget `Enqueue` stores, which is never zero. -/
def storedBudget (engine : RetryEngine) (requested : ℤ) : ℕ+ :=
  ⟨(storedMaxRetries engine requested).toNat, by
    have := storedMaxRetries_pos engine requested
    omega⟩

theorem coe_storedBudget (engine : RetryEngine) (requested : ℤ) :
    ((storedBudget engine requested : ℕ) : ℤ) = storedMaxRetries engine requested := by
  have := storedMaxRetries_pos engine requested
  exact Int.toNat_of_nonneg (by omega)

/-- The tenant owns the job that `Enqueue` inserts, under its idempotency key. -/
def submitted (env : Env) (job : Job) : Action :=
  .submit (prepareJob env job).id job.tenantID (nullableString job.idempotencyKey)
    (storedBudget env.engine job.task.maxRetries) (timestamptz (job.scheduledAt.getD env.now))

/-- What `Enqueue` submits once its insert has gone through. -/
def submission (env : Env) (table : JobTable) (job : Job) : List Action :=
  match createJob table env.storeNow (prepareJob env job) with
  | .ok _ => [submitted env job]
  | .error _ => []

/-- What the next statement of a call does to the queue: one move for each row it
selects, or a submission. -/
def actionsOf (env : Env) (table : JobTable) (call : Call) : List Action :=
  match call.statement env table with
  | some statement => (moveOf env.dbNow statement).elim []
      (LeasedQueue.batch ((table.affected statement.update).map Row.id))
  | none => (inserting call).elim [] (submission env table)

def actions (world : World) : Label → List Action
  | .issue env call => actionsOf env world.jobs call
  | .resume env index => (world.calls[index]?).elim [] (actionsOf env world.jobs)
  | .drop _ => []

/-! ## The simulation -/

/-- The table stands for the queue; every token the queue handed out was minted. -/
structure Represents (table : JobTable) (minted : List String) (queue : Queue) : Prop where
  present : ∀ row ∈ table.rows, ∃ item, queue.items row.id = some item ∧ Describes row item
  origin : ∀ row ∈ table.rows, queue.origin row.id = some (row.tenantID, row.idempotencyKey)
  absent : ∀ id, (∀ row ∈ table.rows, row.id ≠ id) →
    queue.items id = none ∧ queue.origin id = none
  issued : ∀ token ∈ queue.issued, token ∈ minted

section Perform

variable {env : Env} {table table' : JobTable} {call : Call} {queue : Queue}
  {minted minted' : List String}

theorem nodup_affected (table : JobTable) (statement : Statement) :
    ((table.affected statement.update).map Row.id).Nodup :=
  List.pairwise_map.mpr (table.keyed.filter _)

theorem id_mem_affected {statement : Statement} {row : Row} (hrow : row ∈ table.rows) :
    row.id ∈ (table.affected statement.update).map Row.id ↔ statement.Selects row := by
  have hsubset : table.affected statement.update ⊆ table.rows :=
    fun _ hmem => (Table.mem_affected.mp hmem).1
  exact (table.key_mem_map_iff hsubset hrow).trans
    (Table.mem_affected.trans (and_iff_right hrow))

/-- A statement that makes its move with every row it selects. -/
theorem Represents.exec {statement : Statement} {move : Move}
    (hrep : Represents table minted queue)
    (hgrants : move.grants = none ∨
      ∃ selected, ∀ row, statement.Selects row → row.id = selected)
    (hminted : minted ⊆ minted')
    (hfresh : ∀ token ∈ move.grants, token ∉ minted ∧ token ∈ minted')
    (hset : ∀ row ∈ table.rows, statement.Selects row → ∀ item, Describes row item →
      item.Enabled move ∧ Describes (statement.set row) (item.apply move)) :
    let batch := LeasedQueue.batch ((table.affected statement.update).map Row.id) move
    queueMachine.AllowedRun queue batch ∧
      Represents (table.exec statement.update) minted' (queueMachine.run queue batch) := by
  have hnodup := nodup_affected table statement
  refine ⟨LeasedQueue.allowedRun_batch hnodup ?_ ?_, ?_, ?_, ?_, ?_⟩
  · refine hgrants.imp_right ?_
    rintro ⟨selected, hsole⟩ first hfirst second hsecond
    obtain ⟨row, hrow, rfl⟩ := List.mem_map.mp hfirst
    obtain ⟨other, hother, rfl⟩ := List.mem_map.mp hsecond
    rw [hsole row (Table.mem_affected.mp hrow).2, hsole other (Table.mem_affected.mp hother).2]
  · intro id hid
    obtain ⟨row, hmem, rfl⟩ := List.mem_map.mp hid
    obtain ⟨hrow, hselects⟩ := Table.mem_affected.mp hmem
    obtain ⟨item, hitem, hdescribes⟩ := hrep.present row hrow
    refine ⟨⟨item, hitem, (hset row hrow hselects item hdescribes).1⟩, ?_⟩
    exact fun token htoken hissued => (hfresh token htoken).1 (hrep.issued token hissued)
  · intro row hrow
    obtain ⟨old, hold, rfl⟩ := Table.mem_exec.mp hrow
    obtain ⟨item, hitem, hdescribes⟩ := hrep.present old hold
    by_cases hselects : statement.update.selects old
    · rw [if_pos hselects]
      refine ⟨item.apply move, ?_, (hset old hold hselects item hdescribes).2⟩
      have hid : (statement.update.set old).id = old.id := statement.set_id old
      rw [hid, LeasedQueue.items_run_batch queue hnodup,
        if_pos ((id_mem_affected hold).mpr hselects), hitem, Option.map_some]
    · rw [if_neg hselects]
      refine ⟨item, ?_, hdescribes⟩
      rw [LeasedQueue.items_run_batch queue hnodup,
        if_neg (fun hmem => hselects ((id_mem_affected hold).mp hmem)), hitem]
  · rw [LeasedQueue.origin_run_batch]
    apply Table.exec_forall hrep.origin
    intro row hrow hselects horigin
    change queue.origin (statement.set row).id =
      some ((statement.set row).tenantID, (statement.set row).idempotencyKey)
    rw [statement.set_id, statement.set_tenantID, statement.set_idempotencyKey]
    exact horigin
  · intro id hid
    have hold : ∀ row ∈ table.rows, row.id ≠ id := by
      intro row hrow heq
      apply hid _ (Table.mem_exec.mpr ⟨row, hrow, rfl⟩)
      split
      · exact (statement.set_id row).trans heq
      · exact heq
    obtain ⟨hitem, horigin⟩ := hrep.absent id hold
    rw [LeasedQueue.items_run_batch queue hnodup, LeasedQueue.origin_run_batch, hitem]
    refine ⟨?_, horigin⟩
    split <;> rfl
  · intro token htoken
    rcases LeasedQueue.issued_run_batch queue _ move htoken with hold | hgranted
    · exact hminted (hrep.issued token hold)
    · exact (hfresh token hgranted).2

/-- An insert is refused exactly if the id or the key of the tenant is taken. -/
theorem Represents.createJob_iff (hrep : Represents table minted queue) (env : Env) (job : Job) :
    (∃ table', createJob table env.storeNow (prepareJob env job) = .ok table') ↔
      queue.Allowed (submitted env job) := by
  constructor
  · rintro ⟨table', hcreate⟩
    obtain ⟨-, hfresh, hcompatible⟩ := Table.insert_eq_ok (createJob_eq_ok hcreate)
    refine ⟨(hrep.absent _ hfresh).1, fun other hkey horigin => ?_⟩
    obtain ⟨row, hrow, hid⟩ : ∃ row ∈ table.rows, row.id = other := by
      by_contra hnone
      rw [(hrep.absent other fun row hrow hid => hnone ⟨row, hrow, hid⟩).2] at horigin
      cases horigin
    rw [← hid, hrep.origin row hrow, Option.some.injEq, Prod.mk.injEq] at horigin
    have hentry := hcompatible row hrow
    simp only [Schema.Compatible, jobs, createRow, horigin] at hentry
    rcases hentry with hnone | hdistinct
    · exact hkey (Option.map_eq_none_iff.mp hnone)
    · exact hdistinct rfl
  · rintro ⟨hid, hkey⟩
    have hfresh : ∀ row ∈ table.rows, row.id ≠ (prepareJob env job).id := by
      intro row hrow heq
      obtain ⟨item, hitem, -⟩ := hrep.present row hrow
      rw [heq, hid] at hitem
      cases hitem
    have hcompatible : ∀ row ∈ table.rows,
        jobs.Compatible row (createRow env.storeNow (prepareJob env job)) := by
      intro row hrow
      refine or_iff_not_imp_right.mpr fun hsame => ?_
      rw [not_ne_iff] at hsame
      cases hnew : nullableString job.idempotencyKey with
      | none => exact hsame.trans (congrArg (Option.map _) hnew)
      | some key =>
          obtain ⟨found, hfound, hpair⟩ := Option.map_eq_some_iff.mp
            (hsame.trans (congrArg (Option.map _) hnew))
          obtain ⟨htenant, hkeys⟩ := Prod.mk.inj hpair
          have horigin := hrep.origin row hrow
          rw [hfound, htenant, hkeys, ← hnew] at horigin
          exact absurd horigin (hkey row.id (hnew ▸ Option.some_ne_none key))
    obtain ⟨table', hinsert⟩ := Table.exists_insert_eq_ok _ hfresh hcompatible
    exact ⟨table', by rw [createJob, hinsert]⟩

/-- An insert is a submission. -/
theorem Represents.insert {job : Job} (hrep : Represents table minted queue)
    (hminted : minted ⊆ minted') (hjob : FromCaller job)
    (hcreate : createJob table env.storeNow (prepareJob env job) = .ok table') :
    queueMachine.AllowedRun queue (submission env table job) ∧
      Represents table' minted' (queueMachine.run queue (submission env table job)) := by
  have hinsert := createJob_eq_ok hcreate
  have hfresh : ∀ row ∈ table.rows, row.id ≠ (prepareJob env job).id :=
    (Table.insert_eq_ok hinsert).2.1
  have hid : (createRow env.storeNow (prepareJob env job)).id = (prepareJob env job).id := rfl
  rw [submission, hcreate]
  refine ⟨⟨(hrep.createJob_iff env job).mp ⟨table', hcreate⟩, trivial⟩, ?_, ?_, ?_, ?_⟩
  · intro row hrow
    change ∃ item, Function.update queue.items (prepareJob env job).id _ row.id = some item ∧ _
    rw [Function.update_apply]
    rcases (Table.mem_insert hinsert).mp hrow with hold | rfl
    · rw [if_neg (hfresh row hold)]
      exact hrep.present row hold
    · rw [if_pos hid]
      refine ⟨_, rfl, ?_, ?_, ?_, ?_⟩
      · simp [createRow, prepareJob, hjob.state]
      · exact (coe_storedBudget env.engine job.task.maxRetries).symm
      · exact hjob.attempt
      · rfl
  · intro row hrow
    change Function.update queue.origin (prepareJob env job).id _ row.id = _
    rw [Function.update_apply]
    rcases (Table.mem_insert hinsert).mp hrow with hold | rfl
    · rw [if_neg (hfresh row hold)]
      exact hrep.origin row hold
    · rw [if_pos hid]
      rfl
  · intro id hid
    have hother : id ≠ (prepareJob env job).id :=
      fun heq => hid _ ((Table.mem_insert hinsert).mpr (.inr rfl)) heq.symm
    change Function.update queue.items (prepareJob env job).id _ id = none ∧
      Function.update queue.origin (prepareJob env job).id _ id = none
    rw [Function.update_apply, Function.update_apply, if_neg hother, if_neg hother]
    exact hrep.absent id fun row hrow => hid row ((Table.mem_insert hinsert).mpr (.inl hrow))
  · exact fun token htoken => hminted (hrep.issued token htoken)

/-- The statement of a call on the Postgres transport makes its move with every row
it selects. -/
theorem exists_moveOf {world : World} {statement : Statement}
    (hcall : CallBudget table world.calls call) (hmay : PostgresCalls world env call)
    (hstatement : call.statement env table = some statement) :
    ∃ move, moveOf env.dbNow statement = some move ∧
      ∀ row ∈ table.rows, statement.Selects row → ∀ item, Describes row item →
        item.Enabled move ∧ Describes (statement.set row) (item.apply move) := by
  have hmoves : ∃ move, moveOf env.dbNow statement = some move := by
    cases issues_of_statement hstatement with
    | kafkaWrite => exact hmay.2.2.elim
    | failClaimedJob => exact hmay.2.2.elim
    | failWrite _ _ _ permanent job =>
        cases failNextRun env job permanent <;> exact ⟨_, rfl⟩
    | _ => exact ⟨_, rfl⟩
  obtain ⟨move, hmove⟩ := hmoves
  refine ⟨move, hmove, fun row hrow hselects item hdescribes => ?_⟩
  refine hdescribes.set hmove hselects ?_ ?_ ?_
  · rintro selected now expires token rfl
    obtain ⟨filter, hclaimable⟩ := claimable_of_statement hstatement hrow hselects
    exact ⟨hclaimable.1, hclaimable.2.1⟩
  · rintro expired now rfl
    obtain ⟨limit, -, heq⟩ := statement_eq_requeueExpiredRunning hstatement
    obtain ⟨hrunning, hover, -⟩ := leaseExpired_of_selects heq hrow hselects
    have hnow : now = env.dbNow := by
      rw [requeueExpiredRunningStatement] at heq
      split at heq <;> cases heq
      rfl
    exact ⟨hrunning, hnow ▸ hover⟩
  · rintro id token errMsg instant now rfl
    have hbudget : 1 ≤ row.taskMaxRetries := by
      cases item with
      | _ budget =>
          have := budget.pos
          have := hdescribes.2.1
          omega
    exact retry_below_budget hcall hrow hbudget hstatement hselects

/-- Only a claim hands out a token, the one minted for it, and selects one row. -/
theorem grants_of_moveOf {statement : Statement} {move : Move}
    (hmove : moveOf env.dbNow statement = some move)
    (hstatement : call.statement env table = some statement) :
    move.grants = none ∨ call.mints = true ∧
      move.grants = some (newLeaseToken env.random) ∧
      ∃ id, ∀ row, statement.Selects row → row.id = id := by
  cases statement with
  | claimNextJob selected now expires token =>
      obtain ⟨lease, filter, rfl, heq⟩ := statement_eq_claimNextJob hstatement
      have htoken : token = newLeaseToken env.random := by
        cases heq
        rfl
      cases hmove
      refine .inr ⟨rfl, congrArg some htoken, selected.getD "", fun row hselects => ?_⟩
      rw [hselects, Option.getD_some]
  | updateJob => cases hmove
  | failClaimedJob id token errMsg nextRun now =>
      cases nextRun <;> cases hmove <;> exact .inl rfl
  | _ =>
      cases hmove
      exact .inl rfl

theorem effect_of_statement {statement : Statement}
    (hstatement : call.statement env table = some statement) :
    (call.effect env table).table = table.exec statement.update ∧
      (call.effect env table).minted =
        if call.mints then some (newLeaseToken env.random) else none := by
  have hupdate : (call.updateEffect env table).table = table.exec statement.update ∧
      (call.updateEffect env table).minted =
        if call.mints then some (newLeaseToken env.random) else none := by
    rw [Call.updateEffect, hstatement]
    exact ⟨rfl, rfl⟩
  cases call with
  | enqueue | enqueueInsert | enqueueRelookup | kafkaClaim | fail | deleteFinished
  | deleteExec | recheck => cases hstatement
  | _ => exact hupdate

theorem table_enqueueInsertEffect (env : Env) (table : JobTable) (job : Job) :
    createJob table env.storeNow (prepareJob env job) =
        .ok (enqueueInsertEffect env table job).table ∨
      submission env table job = [] ∧ (enqueueInsertEffect env table job).table = table := by
  rw [enqueueInsertEffect, submission]
  rcases hcreate : createJob table env.storeNow (prepareJob env job) with err | inserted
  · right
    dsimp only
    split <;> exact ⟨rfl, rfl⟩
  · exact .inl rfl

theorem table_enqueueLookupEffect (table : JobTable) (job : Job) (missed : Option Call) :
    (enqueueLookupEffect table job missed).table = table := by
  rw [enqueueLookupEffect]
  split
  · rfl
  · split <;> rfl

/-- A call without an `UPDATE` inserts a job or leaves the table alone. -/
theorem effect_of_not_statement (hstatement : call.statement env table = none)
    (hdeletes : call.deletes = false) :
    (∃ job, call.Inserts job ∧ actionsOf env table call = submission env table job ∧
        createJob table env.storeNow (prepareJob env job) =
          .ok (call.effect env table).table) ∨
      actionsOf env table call = [] ∧ (call.effect env table).table = table := by
  have hinserts : ∀ job, inserting call = some job →
      (call.effect env table).table = (enqueueInsertEffect env table job).table →
      (∃ job, call.Inserts job ∧ actionsOf env table call = submission env table job ∧
        createJob table env.storeNow (prepareJob env job) =
          .ok (call.effect env table).table) ∨
      actionsOf env table call = [] ∧ (call.effect env table).table = table := by
    intro job hjob htable
    have hactions : actionsOf env table call = submission env table job := by
      rw [actionsOf, hstatement, hjob]
      rfl
    rw [htable, hactions]
    refine (table_enqueueInsertEffect env table job).imp_left fun hcreate => ?_
    exact ⟨job, inserting_eq_some.mp hjob, rfl, hcreate⟩
  have hreads : inserting call = none → (call.effect env table).table = table →
      actionsOf env table call = [] ∧ (call.effect env table).table = table := by
    intro hnone htable
    rw [actionsOf, hstatement, hnone]
    exact ⟨rfl, htable⟩
  cases call with
  | enqueueInsert job => exact hinserts job rfl rfl
  | enqueue job =>
      by_cases hkey : (withTenant job).idempotencyKey = ""
      · exact hinserts (withTenant job) (if_pos hkey)
          (congrArg Effect.table (if_pos hkey))
      · exact .inr (hreads (if_neg hkey)
          ((congrArg Effect.table (if_neg hkey)).trans (table_enqueueLookupEffect ..)))
  | enqueueRelookup job => exact .inr (hreads rfl (table_enqueueLookupEffect ..))
  | kafkaClaim message lease =>
      refine .inr (hreads rfl ?_)
      simp only [Call.effect]
      split
      · exact readEffect_table ..
      · rfl
  | fail => exact .inr (hreads rfl (readEffect_table ..))
  | recheck => exact .inr (hreads rfl rfl)
  | deleteFinished | deleteExec => cases hdeletes
  | _ =>
      refine .inr (hreads rfl ?_)
      simp only [Call.effect, Call.updateEffect, hstatement]

/-- One statement of a call, seen from the queue. -/
theorem Represents.perform {world : World} (hrep : Represents world.jobs world.minted queue)
    (hcall : CallBudget world.jobs world.calls call) (hdeletes : call.deletes = false)
    (hmay : PostgresCalls world env call) :
    queueMachine.AllowedRun queue (actionsOf env world.jobs call) ∧
      Represents (world.perform env call).jobs (world.perform env call).minted
        (queueMachine.run queue (actionsOf env world.jobs call)) := by
  have hminted : world.minted ⊆ (world.perform env call).minted :=
    List.subset_append_right ..
  rcases hstatement : call.statement env world.jobs with _ | statement
  · rcases effect_of_not_statement hstatement hdeletes with
      ⟨job, hinserts, hactions, hcreate⟩ | ⟨hactions, htable⟩
    · rw [hactions]
      exact hrep.insert hminted (fromCaller_of_callBudget hcall hinserts) hcreate
    · rw [hactions]
      refine ⟨trivial, ?_⟩
      change Represents (call.effect env world.jobs).table _ queue
      rw [htable]
      exact ⟨hrep.present, hrep.origin, hrep.absent,
        fun token htoken => hminted (hrep.issued token htoken)⟩
  · obtain ⟨move, hmove, hset⟩ := exists_moveOf hcall hmay hstatement
    obtain ⟨htable, hnew⟩ := effect_of_statement hstatement
    have hactions : actionsOf env world.jobs call =
        LeasedQueue.batch ((world.jobs.affected statement.update).map Row.id) move := by
      rw [actionsOf, hstatement]
      simp only [hmove, Option.elim_some]
    have hgrants := grants_of_moveOf hmove hstatement
    rw [hactions]
    change _ ∧ Represents (call.effect env world.jobs).table _ _
    rw [htable]
    refine hrep.exec (hgrants.imp_right fun hclaim => hclaim.2.2) hminted ?_ hset
    intro token htoken
    rcases hgrants with hnone | ⟨hmints, hgranted, -⟩
    · rw [hnone] at htoken
      cases htoken
    · rw [hgranted, Option.mem_some_iff] at htoken
      rw [← htoken]
      refine ⟨hmay.1.1 hmints, List.mem_append_left _ (Option.mem_toList.mpr ?_)⟩
      rw [hnew, if_pos hmints]

end Perform

theorem budgetInv_of_postgres {world : World}
    (hreach : (machine EmptyTable PostgresCalls).Reachable world) : BudgetInv world :=
  budgetInv (reachable_mono NotKafka hreach (fun _ => notKafka_of_mem_calls)
    (fun _ htable => htable) fun _ _ _ => budgetCalls_of_postgresCalls)

/-- A step of the callers, seen from the queue. -/
theorem step_refines {world : World} {queue : Queue} {label : Label}
    (hreach : (machine EmptyTable PostgresCalls).Reachable world)
    (hrep : Represents world.jobs world.minted queue)
    (hallowed : (machine EmptyTable PostgresCalls).Allowed world label) :
    queueMachine.AllowedRun queue (actions world label) ∧
      Represents (world.step label).jobs (world.step label).minted
        (queueMachine.run queue (actions world label)) := by
  have hinv := budgetInv_of_postgres hreach
  cases label with
  | issue env call =>
      have hmay := budgetCalls_of_postgresCalls (notKafka_of_mem_calls hreach) hallowed.2
      have hcall := callBudget_of_starts hallowed.1 hmay
      have hkeeps := deletes_of_starts hallowed.1 hmay.1
      exact hrep.perform (hcall.subset (List.subset_cons_self ..)) hkeeps hallowed.2
  | resume env index =>
      rw [World.step, actions]
      rcases hcall : world.calls[index]? with _ | call
      · exact ⟨trivial, hrep⟩
      · have hmem := List.mem_of_getElem? hcall
        have hkeeps := hinv.fencing.keeps call hmem
        have hrest : world.calls.eraseIdx index ⊆ world.calls := List.eraseIdx_subset
        have hbudget := (hinv.calls call hmem).subset hrest
        have hmay := hallowed call hcall
        generalize world.calls.eraseIdx index = calls at hbudget hmay
        have hrep' : Represents { world with calls }.jobs { world with calls }.minted queue := hrep
        exact hrep'.perform hbudget hkeeps hmay
  | drop index => exact ⟨trivial, hrep⟩

/-- The job table under the callers of the Postgres transport refines the leased
queue. -/
def simulation : Simulation (machine EmptyTable PostgresCalls) queueMachine where
  Rel world queue := Represents world.jobs world.minted queue
  actions := actions
  init world hinit := by
    refine ⟨⟨fun _ => none, fun _ => none, ∅⟩, ⟨fun _ => ⟨rfl, rfl⟩, rfl⟩, ?_, ?_,
      fun _ _ => ⟨rfl, rfl⟩, ?_⟩
    · rw [hinit.1]
      intro row hrow
      cases hrow
    · rw [hinit.1]
      intro row hrow
      cases hrow
    · intro token htoken
      cases htoken
  step _ _ _ hreach hrep hallowed := step_refines hreach hrep hallowed

/-! ## What the callers are told -/

/-- The item is one of the tenant's, if one is named. -/
def Owned (queue : Queue) (tenant id : String) : Prop :=
  ∃ owner key, queue.origin id = some (owner, key) ∧ (tenant = anyTenant ∨ owner = tenant)

/-- The answers of the calls, told from the queue: whoever presents a token succeeds
exactly while the item is held under it, a claim returns an item that waits and is
due, and a claim that finds nothing leaves no such item behind.  `Enqueue` submits what the
queue has room for and finds what it was submitted as before, `CancelJob` and `RequeueDeadJob`
move items of the tenant that can make the move, and the reaper counts the leases that are
over. -/
structure Answers (env : Env) (table : JobTable) (queue : Queue) : Prop where
  inserted : ∀ (call : Call) (job : Job), call.Inserts job →
    ((call.effect env table).reply = some (.id (prepareJob env job).id) ↔
      queue.Allowed (submitted env job))
  found : ∀ (call : Call) (job : Job) id, call.LooksUp job → job.tenantID ≠ anyTenant →
    ((call.effect env table).reply = some (.id id) ↔
      queue.origin id = some (job.tenantID, some job.idempotencyKey))
  renewed : ∀ id token lease, (Call.renewLease id token lease).answer env table = .done ↔
    token ≠ "" ∧ queue.Holds id token
  released : ∀ id token reason retryAfter,
    (Call.releaseClaim id token reason retryAfter).answer env table = .done ↔
      queue.Holds id token
  completed : ∀ id token metadata,
    (∃ job, (Call.completeClaimedJob id token metadata).answer env table = .job job) ↔
      token ≠ "" ∧ queue.Holds id token
  failed : ∀ id token errMsg permanent read,
    (∃ job, (Call.failWrite id token errMsg permanent read).answer env table = .job job) ↔
      token ≠ "" ∧ queue.Holds id token
  claimed : ∀ lease filter job,
    (Call.claimNextJob lease filter).answer env table = .job job →
      Owned queue filter.tenant job.id ∧ ∃ due ≤ timestamptz env.dbNow, queue.Waits job.id due
  idle : ∀ lease tenant, (Call.claimNextJob lease ⟨tenant, [], []⟩).answer env table =
    .error .jobNotFound → ∀ id due, Owned queue tenant id → queue.Waits id due →
      due ≤ timestamptz env.dbNow → env.locked id = true
  cancelled : ∀ tenant id, ((Call.cancelJob tenant id).effect env table).reply = some .done ↔
    Owned queue tenant id ∧ queue.Ready id (.cancel (timestamptz env.dbNow))
  requeued : ∀ tenant id,
    ((Call.requeueDeadJob tenant id).effect env table).reply = some .done ↔
      Owned queue tenant id ∧ queue.Ready id (.revive (timestamptz env.dbNow))
  missed : ∀ tenant id, ((Call.recheck tenant id).effect env table).reply =
    some (.error .jobNotFound) ↔ ¬ Owned queue tenant id
  reaped : ∀ limit : ℤ, 0 < limit → ∃ ids : List String, ids.Nodup ∧
    (Call.requeueExpiredRunning limit).answer env table = .count ids.length ∧
    ids.length ≤ limit ∧
    (∀ id ∈ ids, queue.Ready id (.expire (timestamptz env.dbNow))) ∧
    (ids.length < limit → ∀ id, queue.Ready id (.expire (timestamptz env.dbNow)) →
      env.locked id = false → id ∈ ids)

section Answers

variable {table : JobTable} {minted : List String} {queue : Queue}

theorem Represents.exists_row (hrep : Represents table minted queue) {id : String} {item : Item}
    (hitem : queue.items id = some item) :
    ∃ row ∈ table.rows, row.id = id ∧ Describes row item := by
  by_contra hnone
  rw [(hrep.absent id ?_).1] at hitem
  · cases hitem
  · intro row hrow hid
    obtain ⟨found, hfound, hdescribes⟩ := hrep.present row hrow
    rw [hid, hitem, Option.some.injEq] at hfound
    exact hnone ⟨row, hrow, hid, hfound ▸ hdescribes⟩

theorem Represents.exists_row_of_origin (hrep : Represents table minted queue) {id : String}
    {origin : String × Option String} (horigin : queue.origin id = some origin) :
    ∃ row ∈ table.rows, row.id = id ∧ (row.tenantID, row.idempotencyKey) = origin := by
  by_contra hnone
  rw [(hrep.absent id ?_).2] at horigin
  · cases horigin
  · intro row hrow hid
    have hfound := hrep.origin row hrow
    rw [hid, horigin, Option.some.injEq] at hfound
    exact hnone ⟨row, hrow, hid, hfound.symm⟩

theorem Represents.owned_iff (hrep : Represents table minted queue) (tenant id : String) :
    Owned queue tenant id ↔ ∃ row ∈ table.rows, row.id = id ∧ InTenant tenant row := by
  constructor
  · rintro ⟨owner, key, horigin, howner⟩
    obtain ⟨row, hrow, hid, hpair⟩ := hrep.exists_row_of_origin horigin
    obtain ⟨rfl, rfl⟩ := Prod.mk.inj hpair
    exact ⟨row, hrow, hid, howner⟩
  · rintro ⟨row, hrow, rfl, htenant⟩
    exact ⟨row.tenantID, row.idempotencyKey, hrep.origin row hrow, htenant⟩

/-- A move is possible exactly if the row is one it fits. -/
theorem Represents.ready_iff (hrep : Represents table minted queue) {move : Move}
    {Fits : Row → Prop}
    (hfits : ∀ row item, Describes row item → (item.Enabled move ↔ Fits row)) (id : String) :
    queue.Ready id move ↔ ∃ row ∈ table.rows, row.id = id ∧ Fits row := by
  constructor
  · rintro ⟨item, hitem, henabled⟩
    obtain ⟨row, hrow, hid, hdescribes⟩ := hrep.exists_row hitem
    exact ⟨row, hrow, hid, (hfits row item hdescribes).mp henabled⟩
  · rintro ⟨row, hrow, rfl, hrowFits⟩
    obtain ⟨item, hitem, hdescribes⟩ := hrep.present row hrow
    exact ⟨item, hitem, (hfits row item hdescribes).mpr hrowFits⟩

theorem Represents.owned_ready_iff (hrep : Represents table minted queue) {move : Move}
    {Fits : Row → Prop}
    (hfits : ∀ row item, Describes row item → (item.Enabled move ↔ Fits row))
    (tenant id : String) :
    Owned queue tenant id ∧ queue.Ready id move ↔
      ∃ row ∈ table.rows, row.id = id ∧ InTenant tenant row ∧ Fits row := by
  rw [hrep.owned_iff, hrep.ready_iff hfits]
  constructor
  · rintro ⟨⟨row, hrow, hid, htenant⟩, other, hother, hsame, hrowFits⟩
    have heq := table.key_unique hother hrow (hsame.trans hid.symm)
    exact ⟨row, hrow, hid, htenant, heq ▸ hrowFits⟩
  · rintro ⟨row, hrow, hid, htenant, hrowFits⟩
    exact ⟨⟨row, hrow, hid, htenant⟩, row, hrow, hid, hrowFits⟩

theorem Describes.cancel_iff {row : Row} {item : Item} {now : ℤ}
    (hdescribes : Describes row item) : item.Enabled (.cancel now) ↔
      row.state = .pending ∨ row.state = .running ∨ row.state = .failed := by
  cases item <;> simp [LeasedQueue.Item.Enabled, hdescribes.1]

theorem Describes.revive_iff {row : Row} {item : Item} {now : ℤ}
    (hdescribes : Describes row item) : item.Enabled (.revive now) ↔ row.state = .dead := by
  cases item <;> simp [LeasedQueue.Item.Enabled, hdescribes.1]

theorem Describes.expire_iff {row : Row} {item : Item} {now : ℤ}
    (hdescribes : Describes row item) : item.Enabled (.expire now) ↔
      row.state = .running ∧ ∃ expires ∈ row.leaseExpiresAt, expires ≤ now := by
  cases item with
  | held budget spent hpos hspent token expires =>
      simp [LeasedQueue.Item.Enabled, hdescribes.1, hdescribes.2.2.2.2]
  | waiting | finished | dead => simp [LeasedQueue.Item.Enabled, hdescribes.1]

theorem Represents.holds_iff (hrep : Represents table minted queue) (id token : String) :
    queue.Holds id token ↔ ∃ row ∈ table.rows, Statement.Holds id token row := by
  constructor
  · rintro ⟨budget, spent, hpos, hspent, expires, hitem⟩
    obtain ⟨row, hrow, hid, hstate, -, -, htoken, -⟩ := hrep.exists_row hitem
    exact ⟨row, hrow, hid, hstate, htoken⟩
  · rintro ⟨row, hrow, hholds⟩
    obtain ⟨item, hitem, hdescribes⟩ := hrep.present row hrow
    obtain ⟨budget, spent, hpos, hspent, expires, rfl⟩ :=
      hdescribes.exists_held_of_holds hholds
    rw [hholds.1] at hitem
    exact ⟨budget, spent, hpos, hspent, expires, hitem⟩

theorem execOr_eq_ok_iff (table : JobTable) (statement : Statement) (err : StoreError) :
    (∃ value, (execOr table statement err).1 = .ok value) ↔
      ∃ row ∈ table.rows, statement.Selects row := by
  rcases execOr_cases table statement err with ⟨row, hrow, hselects, hexec⟩ | ⟨hnone, hexec⟩
  · rw [hexec]
    exact iff_of_true ⟨(), rfl⟩ ⟨row, hrow, hselects⟩
  · rw [hexec]
    refine iff_of_false ?_ ?_
    · rintro ⟨value, hok⟩
      cases hok
    · rintro ⟨row, hrow, hselects⟩
      exact hnone row hrow hselects

theorem execReturning_eq_ok_iff (table : JobTable) (statement : Statement) (err : StoreError) :
    (∃ job, (execReturning table statement err).1 = .ok job) ↔
      ∃ row ∈ table.rows, statement.Selects row := by
  constructor
  · rintro ⟨job, hok⟩
    obtain ⟨row, hrow, hselects, -⟩ := exists_row_of_execReturning hok
    exact ⟨row, hrow, hselects⟩
  · rintro ⟨row, hrow, hselects⟩
    rw [execReturning]
    dsimp only
    split
    · rename_i hnone
      have hmem : row ∈ table.affected statement.update :=
        Table.mem_affected.mpr ⟨hrow, hselects⟩
      rw [hnone] at hmem
      cases hmem
    · exact ⟨_, rfl⟩

/-- A method that takes a token succeeds if there is one and its statement succeeds. -/
theorem withToken_ok_iff {Value : Type} {token : String} {statement : Statement}
    {err : StoreError} {run : Statement → Except StoreError Value × JobTable} {Selected : Prop}
    (hrun : (∃ value, (run statement).1 = .ok value) ↔ Selected) :
    (∃ value, (match withToken token statement with
      | none => (Except.error err, table)
      | some statement => run statement).1 = .ok value) ↔ token ≠ "" ∧ Selected := by
  rw [withToken]
  by_cases hempty : token = ""
  · rw [if_pos hempty]
    refine iff_of_false ?_ fun hboth => hboth.1 hempty
    rintro ⟨value, hok⟩
    cases hok
  · rw [if_neg hempty, and_iff_right hempty]
    exact hrun

theorem ofUnit_eq_done_iff (result : Except StoreError Unit) :
    Reply.ofUnit result = .done ↔ ∃ value, result = .ok value := by
  cases result with
  | ok value => exact iff_of_true rfl ⟨value, rfl⟩
  | error err => exact iff_of_false (fun hdone => by cases hdone) fun ⟨_, hok⟩ => by cases hok

theorem exists_ofJob_iff (result : Except StoreError Job) :
    (∃ job, Reply.ofJob result = .job job) ↔ ∃ job, result = .ok job := by
  cases result with
  | ok job => exact iff_of_true ⟨job, rfl⟩ ⟨job, rfl⟩
  | error err =>
      refine iff_of_false ?_ ?_
      · rintro ⟨job, hjob⟩
        cases hjob
      · rintro ⟨job, hjob⟩
        cases hjob

theorem exists_failWrite_answer_iff (env : Env) (table : JobTable) (id token errMsg : String)
    (permanent : Bool) (read : Job) :
    (∃ job, (Call.failWrite id token errMsg permanent read).answer env table = .job job) ↔
      ∃ value, (JobStore.failClaimedJob table env.dbNow id token errMsg
        (failNextRun env read permanent)).1 = .ok value := by
  rw [Call.answer]
  rcases (JobStore.failClaimedJob table env.dbNow id token errMsg
    (failNextRun env read permanent)).1 with err | value
  · exact iff_of_false (fun ⟨_, hjob⟩ => by cases hjob) fun ⟨_, hok⟩ => by cases hok
  · exact iff_of_true ⟨_, rfl⟩ ⟨value, rfl⟩

/-- A claim finds a row if there is one for it. -/
theorem exists_claim_of_claimable {env : Env} (lease : ℤ) {filter : ClaimFilter} {row : Row}
    (hrow : row ∈ table.rows) (hclaimable : Claimable env.dbNow filter env.locked row) :
    ∃ job, (JobStore.claimNextJob table env.storeNow env.dbNow (newLeaseToken env.random)
      env.locked lease filter).1 = .ok job := by
  rw [JobStore.claimNextJob, execReturning_eq_ok_iff]
  rcases hfirst : (selectOrdered claimBefore (Claimable env.dbNow filter env.locked) 1
    table.rows).head? with _ | first
  · rw [List.head?_eq_none_iff] at hfirst
    exact absurd hclaimable (not_selects_of_selectOrdered_eq_nil Nat.one_pos hfirst hrow)
  · refine ⟨first, (mem_selectOrdered (List.mem_of_head? hfirst)).1, ?_⟩
    rw [claimNextJobStatement, hfirst]
    rfl

theorem enqueueInsertEffect_reply_iff (env : Env) (table : JobTable) (job : Job) :
    (enqueueInsertEffect env table job).reply = some (.id (prepareJob env job).id) ↔
      ∃ table', createJob table env.storeNow (prepareJob env job) = .ok table' := by
  rw [enqueueInsertEffect]
  cases hcreate : createJob table env.storeNow (prepareJob env job) with
  | ok table' => exact iff_of_true rfl ⟨table', rfl⟩
  | error err =>
      refine iff_of_false ?_ ?_
      · dsimp only
        split
        · intro hreply
          cases hreply
        · intro hreply
          cases hreply
      · rintro ⟨table', hok⟩
        cases hok

/-- A lookup of `Enqueue` finds the row under the key, if there is one. -/
theorem enqueueLookupEffect_reply_iff (table : JobTable) {job : Job} (missed : Option Call)
    (id : String) (htenant : job.tenantID ≠ anyTenant) :
    (enqueueLookupEffect table job missed).reply = some (.id id) ↔
      ∃ row ∈ table.rows, row.id = id ∧ row.tenantID = job.tenantID ∧
        row.idempotencyKey = some job.idempotencyKey := by
  rw [enqueueLookupEffect]
  cases hget : getJobByIdempotencyKey table job.tenantID job.idempotencyKey with
  | ok existing =>
      obtain ⟨row, hrow, hkey, howner, rfl⟩ := getJobByIdempotencyKey_eq_ok hget
      have howner : row.tenantID = job.tenantID := howner.resolve_left htenant
      constructor
      · intro hreply
        cases hreply
        exact ⟨row, hrow, rfl, howner, hkey⟩
      · rintro ⟨other, hother, rfl, hsame, hotherKey⟩
        have hentry : ∀ found : Row, found.tenantID = job.tenantID →
            found.idempotencyKey = some job.idempotencyKey →
            jobs.index found = some (job.tenantID, job.idempotencyKey) := by
          intro found hfound hfoundKey
          simp [jobs, hfound, hfoundKey]
        rw [table.index_unique hrow hother (hentry row howner hkey)
          (hentry other hsame hotherKey)]
        rfl
  | error err =>
      obtain ⟨-, hnone⟩ := getJobByIdempotencyKey_eq_error hget
      refine iff_of_false ?_ ?_
      · dsimp only
        split
        · intro hreply
          cases hreply
        · intro hreply
          cases hreply
      · rintro ⟨row, hrow, -, hsame, hkey⟩
        exact hnone row hrow hkey (.inr hsame)

/-- `CancelJob` and `RequeueDeadJob` answer at once when their write selects a row. -/
theorem updateEffect_reply_iff {env : Env} {call : Call} {statement : Statement} {next : Call}
    (hstatement : call.statement env table = some statement)
    (hafter : call.afterStatement table statement =
      if table.affected statement.update = [] then some next else none)
    (hanswer : call.answer env table = .done) :
    (call.updateEffect env table).reply = some .done ↔
      ∃ row ∈ table.rows, statement.Selects row := by
  rw [Call.updateEffect, hstatement]
  simp only [hafter, hanswer]
  by_cases hnone : table.affected statement.update = []
  · rw [if_pos hnone]
    refine iff_of_false (fun hreply => by cases hreply) ?_
    rintro ⟨row, hrow, hselects⟩
    have hmem : row ∈ table.affected statement.update :=
      Table.mem_affected.mpr ⟨hrow, hselects⟩
    rw [hnone] at hmem
    cases hmem
  · rw [if_neg hnone]
    obtain ⟨row, hmem⟩ := List.exists_mem_of_ne_nil _ hnone
    exact iff_of_true rfl ⟨row, (Table.mem_affected.mp hmem).1, (Table.mem_affected.mp hmem).2⟩

theorem missedWrite_eq_jobNotFound_iff (table : JobTable) (tenant id : String) :
    missedWrite table tenant id = .jobNotFound ↔
      ¬ ∃ row ∈ table.rows, row.id = id ∧ InTenant tenant row := by
  rw [missedWrite]
  cases hget : getJob table tenant id with
  | ok job =>
      obtain ⟨row, hrow, hid, htenant, -⟩ := getJob_eq_ok hget
      refine iff_of_false (fun hmissed => by cases hmissed) ?_
      exact not_not_intro ⟨row, hrow, hid, htenant⟩
  | error err =>
      obtain ⟨rfl, hnone⟩ := getJob_eq_error hget
      refine iff_of_true rfl ?_
      rintro ⟨row, hrow, hid, htenant⟩
      exact hnone row hrow hid htenant

theorem requeueExpiredRunningStatement_of_pos (table : JobTable) (dbNow : ℤ)
    (locked : String → Bool) {limit : ℤ} (hlimit : 0 < limit) :
    requeueExpiredRunningStatement table dbNow locked limit =
      some (.requeueExpiredRunning ((selectOrdered leaseExpiresBefore (LeaseExpired dbNow locked)
        limit.toNat table.rows).map Row.id) dbNow) :=
  if_neg (not_le.mpr hlimit)

/-- The reaper writes the rows its query has chosen. -/
theorem affected_requeueExpiredRunning_perm (table : JobTable) (dbNow : ℤ)
    (locked : String → Bool) (limit : ℕ) :
    (table.affected (Statement.requeueExpiredRunning ((selectOrdered leaseExpiresBefore
      (LeaseExpired dbNow locked) limit table.rows).map Row.id) dbNow).update).Perm
      (selectOrdered leaseExpiresBefore (LeaseExpired dbNow locked) limit table.rows) := by
  refine (List.perm_ext_iff_of_nodup (table.nodup.filter _)
    (nodup_selectOrdered table.nodup)).mpr fun row => ?_
  refine Table.mem_affected.trans ?_
  constructor
  · rintro ⟨hrow, hselects⟩
    exact (table.key_mem_map_iff (fun _ hmem => (mem_selectOrdered hmem).1) hrow).mp hselects
  · intro hmem
    exact ⟨(mem_selectOrdered hmem).1, List.mem_map_of_mem hmem⟩

/-- The answers are the same for every table that stands for the queue. -/
theorem Represents.answers (hrep : Represents table minted queue) (env : Env) :
    Answers env table queue where
  inserted call job hcall := by
    rw [← hrep.createJob_iff, ← enqueueInsertEffect_reply_iff]
    rcases hcall with rfl | ⟨requested, rfl, rfl, hkey⟩
    · rfl
    · rw [Call.effect, if_pos hkey]
  found call job id hcall htenant := by
    have horigin : queue.origin id = some (job.tenantID, some job.idempotencyKey) ↔
        ∃ row ∈ table.rows, row.id = id ∧ row.tenantID = job.tenantID ∧
          row.idempotencyKey = some job.idempotencyKey := by
      constructor
      · intro horigin
        obtain ⟨row, hrow, hid, hpair⟩ := hrep.exists_row_of_origin horigin
        exact ⟨row, hrow, hid, Prod.mk.inj hpair⟩
      · rintro ⟨row, hrow, rfl, hsame, hkey⟩
        rw [hrep.origin row hrow, hsame, hkey]
    rw [horigin]
    rcases hcall with rfl | ⟨requested, rfl, rfl, hkey⟩
    · exact enqueueLookupEffect_reply_iff table _ id htenant
    · rw [Call.effect, if_neg hkey]
      exact enqueueLookupEffect_reply_iff table _ id htenant
  renewed id token lease := by
    rw [Call.answer, ofUnit_eq_done_iff, hrep.holds_iff]
    refine withToken_ok_iff ?_
    exact execOr_eq_ok_iff ..
  released id token reason retryAfter := by
    rw [Call.answer, ofUnit_eq_done_iff, JobStore.releaseClaim, hrep.holds_iff]
    exact execOr_eq_ok_iff ..
  completed id token metadata := by
    rw [Call.answer, exists_ofJob_iff, hrep.holds_iff]
    refine withToken_ok_iff ?_
    exact execReturning_eq_ok_iff ..
  failed id token errMsg permanent read := by
    rw [exists_failWrite_answer_iff, hrep.holds_iff]
    refine withToken_ok_iff ?_
    exact execOr_eq_ok_iff ..
  claimed lease filter job hjob := by
    obtain ⟨found, hfound⟩ := (exists_ofJob_iff _).mp ⟨job, hjob⟩
    rw [Call.answer, hfound, Reply.ofJob, Reply.job.injEq] at hjob
    subst hjob
    obtain ⟨row, hrow, hselects, hscan, -⟩ := exists_row_of_execReturning hfound
    have hclaimable := claimable_of_selects hrow hselects
    obtain ⟨item, hitem, hdescribes⟩ := hrep.present row hrow
    obtain ⟨budget, spent, hspent, due, rfl⟩ := hdescribes.exists_waiting hclaimable.1
    have hid : found.id = row.id := by
      rw [hscan]
      exact Statement.set_id _ row
    refine ⟨?_, due, hclaimable.2.1 due hdescribes.2.2.2, budget, spent, hspent, ?_⟩
    · rw [hid, hrep.owned_iff]
      exact ⟨row, hrow, rfl, hclaimable.2.2.2.1⟩
    · rw [hid, hitem]
  idle lease tenant hmissed id due howned hwaits hdue := by
    obtain ⟨budget, spent, hspent, hitem⟩ := hwaits
    obtain ⟨row, hrow, hid, hstate, -, -, hscheduled⟩ := hrep.exists_row hitem
    obtain ⟨other, hother, hsame, htenant⟩ := (hrep.owned_iff tenant id).mp howned
    rw [table.key_unique hother hrow (hsame.trans hid.symm)] at htenant
    by_contra hlocked
    rw [Bool.not_eq_true, ← hid] at hlocked
    have hclaimable : Claimable env.dbNow ⟨tenant, [], []⟩ env.locked row := by
      refine ⟨hstate, fun scheduled hmem => ?_, .inl rfl, htenant, .inl rfl, hlocked⟩
      rw [hscheduled, Option.mem_some_iff] at hmem
      exact hmem ▸ hdue
    obtain ⟨job, hok⟩ := exists_claim_of_claimable lease hrow hclaimable
    rw [Call.answer, hok] at hmissed
    cases hmissed
  cancelled tenant id := by
    have hreply : ((Call.cancelJob tenant id).updateEffect env table).reply = some .done ↔
        ∃ row ∈ table.rows, (Statement.cancelJob tenant id env.dbNow).Selects row :=
      updateEffect_reply_iff rfl rfl rfl
    exact hreply.trans (hrep.owned_ready_iff (fun _ _ => Describes.cancel_iff) tenant id).symm
  requeued tenant id := by
    rw [hrep.owned_ready_iff fun _ _ => Describes.revive_iff]
    have hreply : ((Call.requeueDeadJob tenant id).updateEffect env table).reply = some .done ↔
        ∃ row ∈ table.rows, (Statement.requeueDeadJob tenant id env.dbNow).Selects row :=
      updateEffect_reply_iff rfl rfl rfl
    refine hreply.trans (exists_congr fun row => ?_)
    exact and_congr_right fun _ => and_congr_right fun _ => and_comm
  missed tenant id := by
    rw [hrep.owned_iff, Call.effect, Option.some.injEq, Reply.error.injEq]
    exact missedWrite_eq_jobNotFound_iff table tenant id
  reaped limit hlimit := by
    have hready : ∀ id, queue.Ready id (.expire (timestamptz env.dbNow)) ↔ ∃ row ∈ table.rows,
        row.id = id ∧ row.state = .running ∧
          ∃ expires ∈ row.leaseExpiresAt, expires ≤ timestamptz env.dbNow :=
      hrep.ready_iff fun _ _ => Describes.expire_iff
    have hperm := affected_requeueExpiredRunning_perm table env.dbNow env.locked limit.toNat
    have hstatement := requeueExpiredRunningStatement_of_pos table env.dbNow env.locked hlimit
    have hshort := length_selectOrdered leaseExpiresBefore (LeaseExpired env.dbNow env.locked)
      limit.toNat table.rows
    generalize hchosen : selectOrdered leaseExpiresBefore (LeaseExpired env.dbNow env.locked)
      limit.toNat table.rows = chosen at *
    refine ⟨chosen.map Row.id, ?_, ?_, ?_, ?_, ?_⟩
    · exact (hperm.map Row.id).nodup_iff.mp (nodup_affected ..)
    · rw [Call.answer, JobStore.requeueExpiredRunning, hstatement, List.length_map]
      exact congrArg Reply.count hperm.length_eq
    · rw [List.length_map, hshort]
      omega
    · intro id hid
      obtain ⟨row, hmem, rfl⟩ := List.mem_map.mp hid
      rw [← hchosen] at hmem
      obtain ⟨hrow, hstate, hover, -⟩ := mem_selectOrdered hmem
      exact (hready _).mpr ⟨row, hrow, rfl, hstate, hover⟩
    · intro hfew id hid hfree
      obtain ⟨row, hrow, rfl, hstate, hover⟩ := (hready id).mp hid
      rw [List.length_map, ← hchosen] at hfew
      rw [← hchosen]
      exact List.mem_map_of_mem
        (mem_selectOrdered_of_length_lt (by omega) hrow ⟨hstate, hover, hfree⟩)

end Answers

/-- Every run of the callers of the Postgres transport, from any reachable table, is
a run of a leased queue in a reachable state, and the queue tells what the calls are
answered after it. -/
theorem job_table_refines_leased_queue {world : World} {labels : List Label}
    (hreach : (machine EmptyTable PostgresCalls).Reachable world)
    (hrun : (machine EmptyTable PostgresCalls).AllowedRun world labels) :
    ∃ queue, queueMachine.Reachable queue ∧ Represents world.jobs world.minted queue ∧
      queueMachine.AllowedRun queue (simulation.trace world labels) ∧
      let after := (machine EmptyTable PostgresCalls).run world labels
      let spec := queueMachine.run queue (simulation.trace world labels)
      Represents after.jobs after.minted spec ∧ ∀ env, Answers env after.jobs spec := by
  obtain ⟨queue, hqueue, hrep⟩ := simulation.reachable hreach
  obtain ⟨hactions, hafter⟩ := simulation.run hreach hrep hrun
  exact ⟨queue, hqueue, hrep, hactions, hafter, hafter.answers⟩

/-- A job that is enqueued and claimed is an item that is submitted and taken. -/
theorem job_table_refines_leased_queue_claimedRun :
    simulation.trace emptyWorld claimedRun =
        [.submit "job-1" "default" none 5 0, .move "job-1"
          (.take (newLeaseToken fun _ => 1) minute (2 * minute))] ∧
      ∃ queue, Represents emptyWorld.jobs emptyWorld.minted queue ∧
        queueMachine.AllowedRun queue (simulation.trace emptyWorld claimedRun) := by
  have hstart : (machine EmptyTable PostgresCalls).Reachable emptyWorld :=
    .start ⟨rfl, rfl, rfl, rfl, rfl⟩
  have hrun : (machine EmptyTable PostgresCalls).AllowedRun emptyWorld claimedRun :=
    allowedRun_claimedRun
      ⟨⟨freshToken_claimedRun.1, fromCaller_plainJob⟩, unforeseenToken_claimedRun.1, trivial⟩
      ⟨⟨freshToken_claimedRun.2, trivial⟩, unforeseenToken_claimedRun.2, trivial⟩
  obtain ⟨queue, -, hrep, hallowed, -⟩ := job_table_refines_leased_queue hstart hrun
  exact ⟨by rfl, queue, hrep, hallowed⟩

end Conduit.QueueRefinement
