import Conduit.Core.Pruning
import Conduit.Jobs.ClaimDrain
import Conduit.Jobs.RowInvariant
import Conduit.Reconciler.RefusedClaims

/-!
# Recovery after a crash

Every process stops, and what is left is the table.  Once the leases are over, passes of a
reconciler bring every job that was not finished back: a job whose worker died is requeued,
or buried if it has no attempt left, and what is due is claimed.  A pass handles one batch
of expired leases and one of claims, so a number of passes is needed that grows with the
number of jobs, and no more.

The clocks stand still meanwhile, nobody else writes, the pool takes what it is given and
retention is off.
-/

namespace Conduit.Recovery

open Models Relational JobStore JobService ClaimDrain Pruning Reconciler

/-! ## What a pass does to the table -/

/-- The claims of a reconciler with these settings at that time. -/
def claimCall (cfg : Config) (now : ℤ) : ClaimCall where
  now := now
  dbNow := now
  leaseDuration := cfg.runningLease
  filter := ⟨anyTenant, cfg.queues, []⟩

/-- The lease of the row is over. -/
def Expired (now : ℤ) (row : Row) : Prop :=
  LeaseExpired now (fun _ => false) row

instance (now : ℤ) : DecidablePred (Expired now) := fun row =>
  inferInstanceAs (Decidable (LeaseExpired now _ row))

/-- The table after the reaper. -/
def reaped (cfg : Config) (now : ℤ) (table : JobTable) : JobTable :=
  (requeueExpiredRunning table now (fun _ => false) cfg.batchSize).2

/-- So many claims in a row lead from one table to another. -/
inductive Claims (call : ClaimCall) : ℕ → JobTable → JobTable → Prop
  | nil (table : JobTable) : Claims call 0 table table
  | snoc {count : ℕ} {table middle : JobTable} {row : Row} (random : Fin 16 → UInt8)
      (hclaims : Claims call count table middle) (hrow : row ∈ call.eligible middle) :
      Claims call (count + 1) table (middle.exec (call.statement row random).update)

/-- What a pass does: it reaps one batch, and claims one or all there is. -/
def Passed (cfg : Config) (now : ℤ) (table after : JobTable) : Prop :=
  ∃ count : ℕ, Claims (claimCall cfg now) count (reaped cfg now table) after ∧
    ((count : ℤ) = cfg.batchSize ∨ (claimCall cfg now).eligible after = [])

/-! ## The pass of the reconciler -/

/-- The clocks read that time and nothing is locked. -/
structure AtTime (now : ℤ) (env : Env) : Prop where
  storeNow : env.storeNow = now
  dbNow : env.dbNow = now
  locked : env.locked = fun _ => false

/-- Steps of the pass at that time, and steps of the pool. -/
def Undisturbed (now : ℤ) : Label → Prop
  | .pool _ => True
  | .step env _ => AtTime now env
  | .cancel | .others _ => False

section Pass

variable {cfg : Config} {now : ℤ} {table : JobTable} {pass : Pass} {env : Env}
  {prefersSend : Bool}

/-- What a pass over the table has done at each stage. -/
def Progress (now : ℤ) (table : JobTable) (pass : Pass) : Prop :=
  match pass.stage with
  | .reap => pass.table = table ∧ pass.claimed = 0
  | .loop => (pass.claimed : ℤ) ≤ pass.cfg.batchSize ∧
      Claims (claimCall pass.cfg now) pass.claimed (reaped pass.cfg now table) pass.table
  | .claim => (pass.claimed : ℤ) < pass.cfg.batchSize ∧
      Claims (claimCall pass.cfg now) pass.claimed (reaped pass.cfg now table) pass.table
  | .offer _ | .submit _ false => (pass.claimed : ℤ) < pass.cfg.batchSize ∧
      Claims (claimCall pass.cfg now) (pass.claimed + 1) (reaped pass.cfg now table) pass.table
  | .housekeep | .returned => Passed pass.cfg now table pass.table
  | _ => False

/-- A pass over the table that nothing has disturbed. -/
structure Comes (cfg : Config) (now : ℤ) (table : JobTable) (pass : Pass) : Prop where
  cfg : pass.cfg = cfg
  uncancelled : pass.cancelled = false
  batchSize : 0 < pass.cfg.batchSize
  retention : pass.cfg.retention.completed ≤ 0 ∧ pass.cfg.retention.dead ≤ 0
  progress : Progress now table pass

theorem Comes.reap (hcomes : Comes cfg now table pass) (hstage : pass.stage = .reap)
    (henv : AtTime now env) : Comes cfg now table (pass.reap env) := by
  obtain ⟨hcfg, hopen, hbatch, hretention, hprogress⟩ := hcomes
  rw [Progress, hstage] at hprogress
  obtain ⟨htable, hclaimed⟩ := hprogress
  rw [Pass.reap, hopen, if_neg Bool.false_ne_true, henv.dbNow, henv.locked, htable]
  refine ⟨hcfg, rfl, hbatch, hretention, ?_, ?_⟩
  · change (pass.claimed : ℤ) ≤ pass.cfg.batchSize
    rw [hclaimed]
    exact hbatch.le
  · change Claims _ pass.claimed _ _
    rw [hclaimed]
    exact .nil _

theorem Comes.loop (hcomes : Comes cfg now table pass) (hstage : pass.stage = .loop) :
    Comes cfg now table pass.loop := by
  obtain ⟨hcfg, hopen, hbatch, hretention, hprogress⟩ := hcomes
  rw [Progress, hstage] at hprogress
  obtain ⟨hle, hclaims⟩ := hprogress
  rw [Pass.loop, hopen]
  split
  · exact ⟨hcfg, rfl, hbatch, hretention, ‹_›, hclaims⟩
  · refine ⟨hcfg, hopen, hbatch, hretention, pass.claimed, hclaims, .inl ?_⟩
    exact le_antisymm hle (not_lt.mp ‹_›)

theorem Comes.claim (hcomes : Comes cfg now table pass) (hstage : pass.stage = .claim)
    (henv : AtTime now env) : Comes cfg now table (pass.claim env) := by
  obtain ⟨hcfg, hopen, hbatch, hretention, hprogress⟩ := hcomes
  rw [Progress, hstage] at hprogress
  obtain ⟨hlt, hclaims⟩ := hprogress
  have hanswers := (claimCall pass.cfg now).answers_run pass.table env.random
  have hrun : (claimCall pass.cfg now).run pass.table env.random =
      claimNextJob pass.table env.storeNow env.dbNow (newLeaseToken env.random) env.locked
        pass.cfg.runningLease ⟨anyTenant, pass.cfg.queues, []⟩ := by
    rw [henv.storeNow, henv.dbNow, henv.locked]
    rfl
  rw [hrun] at hanswers
  rw [Pass.claim, hopen, if_neg Bool.false_ne_true]
  generalize claimNextJob pass.table env.storeNow env.dbNow (newLeaseToken env.random)
    env.locked pass.cfg.runningLease ⟨anyTenant, pass.cfg.queues, []⟩ = claimed at hanswers ⊢
  obtain ⟨answer, after⟩ := claimed
  cases hanswers with
  | claimed hrow hfirst =>
      exact ⟨hcfg, rfl, hbatch, hretention, hlt, hclaims.snoc env.random hrow⟩
  | notFound hnone =>
      exact ⟨hcfg, hopen, hbatch, hretention, pass.claimed, hclaims, .inr hnone⟩

theorem Comes.submit (hcomes : Comes cfg now table pass) {job : Job}
    (hstage : pass.stage = .submit job false) :
    Comes cfg now table (pass.submit job false prefersSend) := by
  have hprogress := hcomes.progress
  rw [Progress, hstage] at hprogress
  obtain ⟨hlt, hclaims⟩ := hprogress
  have hanswer : pass.pool.submitBlocking ⟨false, pass.cancelled, prefersSend⟩ job = none ∨
      ∃ pool, pass.pool.submitBlocking ⟨false, pass.cancelled, prefersSend⟩ job =
        some (true, pool) := by
    rw [WorkerPool.Pool.submitBlocking, hcomes.uncancelled]
    dsimp only
    rw [if_neg Bool.false_ne_true]
    split
    · exact .inr ⟨_, rfl⟩
    · exact .inl (if_neg Bool.false_ne_true)
  rcases hanswer with hanswer | ⟨pool, hanswer⟩
  · rw [Pass.submit, hanswer]
    exact hcomes
  · rw [Pass.submit, hanswer]
    refine ⟨hcomes.cfg, hcomes.uncancelled, hcomes.batchSize, hcomes.retention, ?_, hclaims⟩
    change ((pass.claimed + 1 : ℕ) : ℤ) ≤ pass.cfg.batchSize
    omega

theorem Comes.housekeep (hcomes : Comes cfg now table pass) (hstage : pass.stage = .housekeep) :
    Comes cfg now table (pass.housekeep env) := by
  obtain ⟨hcfg, hopen, hbatch, hretention, hprogress⟩ := hcomes
  rw [Progress, hstage] at hprogress
  rw [Pass.housekeep, if_pos hretention]
  exact ⟨hcfg, hopen, hbatch, hretention, hprogress⟩

theorem Comes.advance (hcomes : Comes cfg now table pass) (henv : AtTime now env) :
    Comes cfg now table (pass.advance env prefersSend) := by
  have hprogress := hcomes.progress
  rw [Pass.advance]
  cases hstage : pass.stage with
  | reap => exact hcomes.reap hstage henv
  | loop => exact hcomes.loop hstage
  | claim => exact hcomes.claim hstage henv
  | offer job =>
      rw [Progress, hstage] at hprogress
      rw [hcomes.uncancelled]
      exact ⟨hcomes.cfg, rfl, hcomes.batchSize, hcomes.retention, hprogress⟩
  | submit job entryDone =>
      cases entryDone with
      | false => exact hcomes.submit hstage
      | true =>
          rw [Progress, hstage] at hprogress
          exact hprogress.elim
  | housekeep => exact hcomes.housekeep hstage
  | returned => exact hcomes
  | _ =>
      rw [Progress, hstage] at hprogress
      exact hprogress.elim

theorem Comes.run {labels : List Label} (hcomes : Comes cfg now table pass)
    (hlabels : ∀ label ∈ labels, Undisturbed now label) :
    Comes cfg now table (machine.run pass labels) := by
  induction labels generalizing pass with
  | nil => exact hcomes
  | cons label labels ih =>
      obtain ⟨hlabel, hrest⟩ := List.forall_mem_cons.mp hlabels
      refine ih ?_ hrest
      cases label with
      | cancel | others table => exact hlabel.elim
      | pool label => exact { hcomes with }
      | step env prefersSend => exact hcomes.advance hlabel

end Pass

/-! ## How much is left -/

section Counts

variable {cfg : Config} {now : ℤ} {table after : JobTable}

/-- The rows whose lease is over. -/
def expired (now : ℤ) (table : JobTable) : ℕ :=
  table.rows.countP (Expired now ·)

/-- The rows a claim may take. -/
def due (cfg : Config) (now : ℤ) (table : JobTable) : ℕ :=
  ((claimCall cfg now).eligible table).length

/-- The rows the reaper writes. -/
def batch (cfg : Config) (now : ℤ) (table : JobTable) : List Row :=
  selectOrdered leaseExpiresBefore (Expired now) cfg.batchSize.toNat table.rows

/-- A row as the reaper leaves it. -/
def requeue (now : ℤ) (row : Row) : Row :=
  (Statement.requeueExpiredRunning [] now).set row

theorem mem_batch {row : Row} (hrow : row ∈ batch cfg now table) :
    row ∈ table.rows ∧ Expired now row :=
  mem_selectOrdered hrow

theorem rows_reaped (hbatch : 0 < cfg.batchSize) (table : JobTable) :
    (reaped cfg now table).rows =
      table.rows.map fun row => if row ∈ batch cfg now table then requeue now row else row := by
  rw [reaped, requeueExpiredRunning, requeueExpiredRunningStatement, if_neg (not_le.mpr hbatch)]
  refine List.map_congr_left fun row hrow => ?_
  have hselected : row.id ∈ (batch cfg now table).map Row.id ↔ row ∈ batch cfg now table :=
    table.key_mem_map_iff (fun row hrow => (mem_batch hrow).1) hrow
  exact if_congr hselected rfl rfl

theorem not_expired_requeue (row : Row) : ¬ Expired now (requeue now row) := by
  rintro ⟨hstate, -⟩
  simp only [requeue, Statement.set] at hstate
  split at hstate <;> cases hstate

/-- The reaper takes one batch of the expired leases. -/
theorem expired_reaped (hbatch : 0 < cfg.batchSize) (table : JobTable) :
    expired now (reaped cfg now table) = expired now table - cfg.batchSize.toNat := by
  have hsplit := countP_split (batch cfg now table) table.rows (Expired now ·)
  have htaken := countP_selectOrdered leaseExpiresBefore (Expired now) cfg.batchSize.toNat
    table.nodup
  have hleft : (reaped cfg now table).rows.countP (Expired now ·) =
      table.rows.countP fun row => decide (Expired now row) &&
        decide (row ∉ batch cfg now table) := by
    rw [rows_reaped hbatch, List.countP_map]
    refine List.countP_congr fun row _ => ?_
    by_cases hrow : row ∈ batch cfg now table
    · simp [hrow, not_expired_requeue]
    · simp [hrow]
  rw [batch] at hsplit hleft
  rw [expired, expired, hleft]
  omega

theorem countP_le_add {Value : Type*} {good first second : Value → Bool} (values : List Value)
    (hgood : ∀ value ∈ values, good value = true → first value = true ∨ second value = true) :
    values.countP good ≤ values.countP first + values.countP second := by
  induction values with
  | nil => exact Nat.zero_le _
  | cons value values ih =>
      obtain ⟨hvalue, hrest⟩ := List.forall_mem_cons.mp hgood
      have hle := ih hrest
      simp only [List.countP_cons]
      cases hgood : good value with
      | false =>
          simp only [Bool.false_eq_true, if_false]
          omega
      | true =>
          rcases hvalue hgood with hfirst | hsecond
          · simp only [hfirst, if_true]
            omega
          · simp only [hsecond, if_true]
            omega

/-- What the reaper requeues was expired before. -/
theorem due_reaped_le (hbatch : 0 < cfg.batchSize) (table : JobTable) :
    due cfg now (reaped cfg now table) ≤
      due cfg now table + min (expired now table) cfg.batchSize.toNat := by
  have htaken := countP_selectOrdered leaseExpiresBefore (Expired now) cfg.batchSize.toNat
    table.nodup
  have hcount : (reaped cfg now table).rows.countP ((claimCall cfg now).Eligible ·) ≤
      table.rows.countP ((claimCall cfg now).Eligible ·) +
        table.rows.countP (fun row => decide (Expired now row) &&
          decide (row ∈ batch cfg now table)) := by
    rw [rows_reaped hbatch, List.countP_map]
    refine countP_le_add table.rows fun row _ heligible => ?_
    by_cases hrow : row ∈ batch cfg now table
    · exact .inr (by simp [hrow, (mem_batch hrow).2])
    · exact .inl (by simpa [hrow] using heligible)
  rw [due, due, ClaimCall.eligible, ClaimCall.eligible, ← List.countP_eq_length_filter,
    ← List.countP_eq_length_filter]
  rw [batch, htaken] at hcount
  exact hcount

/-- A lease that has just begun is not over. -/
theorem not_expired_claimed (hlease : 1000 ≤ cfg.runningLease) (row : Row)
    (random : Fin 16 → UInt8) :
    ¬ Expired now ((claimCall cfg now).claimed row random) := by
  rintro ⟨-, ⟨expires, hexpires, hover⟩, -⟩
  obtain rfl := Option.mem_some_iff.mp hexpires
  dsimp only [claimCall, timestamptz] at hover
  omega

theorem counts_claim (hlease : 1000 ≤ cfg.runningLease) {row : Row}
    (random : Fin 16 → UInt8) (hrow : row ∈ (claimCall cfg now).eligible table) :
    due cfg now (table.exec ((claimCall cfg now).statement row random).update) + 1 =
        due cfg now table ∧
      expired now (table.exec ((claimCall cfg now).statement row random).update) =
        expired now table := by
  have hperm := (ClaimCall.split_of_claimed random hrow).1.length_eq
  refine ⟨hperm.symm, ?_⟩
  obtain ⟨hmem, heligible⟩ := ClaimCall.mem_eligible.mp hrow
  have hselects : ∀ other, ((claimCall cfg now).statement row random).update.selects other ↔
      jobs.key other = jobs.key row := fun other =>
    ⟨fun hselects => (Option.some.inj hselects).symm, fun hid => congrArg some hid.symm⟩
  have hpending : ¬ Expired now row := by
    rintro ⟨hrunning, -⟩
    rw [heligible.1] at hrunning
    cases hrunning
  have hclaimed : ¬ Expired now ((claimCall cfg now).claimed row random) :=
    not_expired_claimed hlease row random
  obtain ⟨before, rest, hsplit, hexec⟩ := Table.exec_split hmem hselects
  change _ = before ++ (claimCall cfg now).claimed row random :: rest at hexec
  rw [expired, expired, hsplit, hexec, List.countP_append, List.countP_append,
    List.countP_cons_of_neg (by simpa using hclaimed),
    List.countP_cons_of_neg (by simpa using hpending)]

theorem Claims.counts (hlease : 1000 ≤ cfg.runningLease) {count : ℕ}
    (hclaims : Claims (claimCall cfg now) count table after) :
    due cfg now after + count = due cfg now table ∧ expired now after = expired now table := by
  induction hclaims with
  | nil table => exact ⟨rfl, rfl⟩
  | snoc random hclaims hrow ih =>
      obtain ⟨hdue, hexpired⟩ := counts_claim hlease random hrow
      exact ⟨by omega, hexpired.trans ih.2⟩

/-- What passes still have before them. -/
def left (cfg : Config) (now : ℤ) (table : JobTable) : ℕ :=
  expired now table + due cfg now table

/-- A pass does a batch of what is left. -/
theorem Passed.left_le (hbatch : 0 < cfg.batchSize) (hlease : 1000 ≤ cfg.runningLease)
    (hpassed : Passed cfg now table after) :
    left cfg now after ≤ left cfg now table - cfg.batchSize.toNat := by
  obtain ⟨count, hclaims, hcount⟩ := hpassed
  obtain ⟨hdue, hexpired⟩ := hclaims.counts hlease
  have hreaped : expired now (reaped cfg now table) = expired now table - cfg.batchSize.toNat :=
    expired_reaped hbatch table
  have hrequeued : due cfg now (reaped cfg now table) ≤
      due cfg now table + min (expired now table) cfg.batchSize.toNat :=
    due_reaped_le hbatch table
  rw [left, left, hexpired, hreaped]
  rcases hcount with hfull | hnone
  · omega
  · have hzero : due cfg now after = 0 := by
      rw [due, hnone]
      rfl
    omega

end Counts

/-! ## What becomes of a row -/

section Fates

variable {cfg : Config} {now : ℤ} {table after : JobTable} {row later : Row}

/-- What a row can be after some passes. -/
inductive Fate (cfg : Config) (now : ℤ) (row : Row) : Row → Prop
  | same : Fate cfg now row row
  | requeued {later : Row} (hid : later.id = row.id) (hrunning : row.state = .running)
      (hbudget : row.attempt < row.taskMaxRetries) (hpending : later.state = .pending)
      (hdue : later.scheduledAt = some (timestamptz now))
      (hqueue : later.taskQueue = row.taskQueue) : Fate cfg now row later
  | buried {later : Row} (hid : later.id = row.id) (hrunning : row.state = .running)
      (hspent : row.taskMaxRetries ≤ row.attempt) (hdead : later.state = .dead) :
      Fate cfg now row later
  | claimed {later : Row} (hid : later.id = row.id)
      (hopen : row.state = .pending ∨
        row.state = .running ∧ row.attempt < row.taskMaxRetries)
      (hrunning : later.state = .running)
      (hlease : later.leaseExpiresAt = some (timestamptz (now + cfg.runningLease))) :
      Fate cfg now row later

theorem not_expired_of_lease (hlease : 1000 ≤ cfg.runningLease)
    (hexpires : later.leaseExpiresAt = some (timestamptz (now + cfg.runningLease))) :
    ¬ Expired now later := by
  rintro ⟨-, ⟨expires, hmem, hover⟩, -⟩
  rw [hexpires, Option.mem_some_iff] at hmem
  unfold timestamptz at hmem hover
  omega

theorem Fate.requeue (hlease : 1000 ≤ cfg.runningLease) (hfate : Fate cfg now row later)
    (hexpired : Expired now later) : Fate cfg now row (requeue now later) := by
  have hstate : later.state = .running := hexpired.1
  cases hfate with
  | same =>
      by_cases hspent : row.taskMaxRetries ≤ row.attempt
      · exact .buried rfl hstate hspent (if_pos hspent)
      · exact .requeued rfl hstate (not_le.mp hspent) (if_neg hspent) (if_neg hspent) rfl
  | requeued hid hrunning hbudget hpending hdue hqueue =>
      rw [hstate] at hpending
      cases hpending
  | buried hid hrunning hspent hdead =>
      rw [hstate] at hdead
      cases hdead
  | claimed hid hopen hrunning hexpires =>
      exact absurd hexpired (not_expired_of_lease hlease hexpires)

theorem Fate.claim (hfate : Fate cfg now row later)
    (heligible : (claimCall cfg now).Eligible later) (random : Fin 16 → UInt8) :
    Fate cfg now row ((claimCall cfg now).claimed later random) := by
  have hstate : later.state = .pending := heligible.1
  cases hfate with
  | same => exact .claimed rfl (.inl hstate) rfl rfl
  | requeued hid hrunning hbudget hpending hdue hqueue =>
      exact .claimed hid (.inr ⟨hrunning, hbudget⟩) rfl rfl
  | buried hid hrunning hspent hdead =>
      rw [hstate] at hdead
      cases hdead
  | claimed hid hopen hrunning hexpires =>
      rw [hstate] at hrunning
      cases hrunning

/-- Every row of one table has come to something in the other. -/
def Evolves (cfg : Config) (now : ℤ) (table after : JobTable) : Prop :=
  ∀ row ∈ table.rows, ∃ later ∈ after.rows, Fate cfg now row later

theorem Evolves.reaped (hbatch : 0 < cfg.batchSize) (hlease : 1000 ≤ cfg.runningLease)
    (hevolves : Evolves cfg now table after) : Evolves cfg now table (reaped cfg now after) := by
  intro row hrow
  obtain ⟨later, hlater, hfate⟩ := hevolves row hrow
  rw [rows_reaped hbatch]
  refine ⟨_, List.mem_map_of_mem hlater, ?_⟩
  split
  · exact hfate.requeue hlease (mem_batch ‹_›).2
  · exact hfate

theorem Evolves.claims {middle : JobTable} {count : ℕ} (hevolves : Evolves cfg now table middle)
    (hclaims : Claims (claimCall cfg now) count middle after) : Evolves cfg now table after := by
  induction hclaims with
  | nil middle => exact hevolves
  | @snoc count middle before taken random hclaims htaken ih =>
      intro row hrow
      obtain ⟨later, hlater, hfate⟩ := ih hevolves row hrow
      refine ⟨_, Table.mem_exec.mpr ⟨later, hlater, rfl⟩, ?_⟩
      obtain ⟨hmem, heligible⟩ := ClaimCall.mem_eligible.mp htaken
      by_cases hselects :
          ((claimCall cfg now).statement taken random).update.selects later
      · have hsame : later = taken :=
          before.key_unique hlater hmem (Option.some.inj hselects).symm
        rw [if_pos hselects, hsame]
        rw [hsame] at hfate
        exact hfate.claim heligible random
      · rw [if_neg hselects]
        exact hfate

theorem Evolves.passed (hbatch : 0 < cfg.batchSize) (hlease : 1000 ≤ cfg.runningLease)
    {middle : JobTable} (hevolves : Evolves cfg now table middle)
    (hpassed : Passed cfg now middle after) : Evolves cfg now table after := by
  obtain ⟨count, hclaims, -⟩ := hpassed
  exact (hevolves.reaped hbatch hlease).claims hclaims

end Fates

/-! ## Passes in a row -/

/-- So many undisturbed passes lead from one table to another. -/
inductive Passes (cfg : Config) (now : ℤ) : ℕ → JobTable → JobTable → Prop
  | nil (table : JobTable) : Passes cfg now 0 table table
  | snoc {count : ℕ} {table : JobTable} {pass : Pass} {labels : List Label}
      (hpasses : Passes cfg now count table pass.table) (hbegins : Begins pass)
      (hcfg : pass.cfg = cfg) (hopen : pass.cancelled = false)
      (hlabels : ∀ label ∈ labels, Undisturbed now label)
      (hreturned : (machine.run pass labels).stage = .returned) :
      Passes cfg now (count + 1) table (machine.run pass labels).table

/-- The row is not in a final state. -/
def Unfinished (row : Row) : Prop :=
  row.state ≠ .completed ∧ row.state ≠ .dead

instance : DecidablePred Unfinished := fun _ =>
  inferInstanceAs (Decidable (_ ∧ _))

section Passes

variable {cfg given : Config} {now : ℤ} {table after : JobTable} {count : ℕ}

theorem batchSize_new (given : Config) : 0 < (new given).batchSize := by
  dsimp only [new]
  split <;> omega

theorem passed_of_run {pass : Pass} {labels : List Label} (hbegins : Begins pass)
    (hretention : pass.cfg.retention.completed ≤ 0 ∧ pass.cfg.retention.dead ≤ 0)
    (hopen : pass.cancelled = false) (hlabels : ∀ label ∈ labels, Undisturbed now label)
    (hreturned : (machine.run pass labels).stage = .returned) :
    Passed pass.cfg now pass.table (machine.run pass labels).table := by
  obtain ⟨⟨given, hgiven⟩, -, -, hstage, -, hclaimed, -⟩ := hbegins
  have hbatch : 0 < pass.cfg.batchSize := by
    rw [hgiven]
    exact batchSize_new given
  have hstart : Comes pass.cfg now pass.table pass := by
    refine ⟨rfl, hopen, hbatch, hretention, ?_⟩
    rw [Progress, hstage]
    exact ⟨rfl, hclaimed⟩
  obtain ⟨hcfg, -, -, -, hprogress⟩ := hstart.run hlabels
  rw [Progress, hreturned, hcfg] at hprogress
  exact hprogress

theorem Passes.left_evolves (hretention : cfg.retention.completed ≤ 0 ∧ cfg.retention.dead ≤ 0)
    (hbatch : 0 < cfg.batchSize) (hlease : 1000 ≤ cfg.runningLease)
    (hpasses : Passes cfg now count table after) :
    left cfg now after ≤ left cfg now table - count * cfg.batchSize.toNat ∧
      Evolves cfg now table after := by
  induction hpasses with
  | nil table =>
      rw [Nat.zero_mul, Nat.sub_zero]
      exact ⟨le_rfl, fun row hrow => ⟨row, hrow, .same⟩⟩
  | snoc hpasses hbegins hcfg hopen hlabels hreturned ih =>
      have hpassed := passed_of_run hbegins (by rwa [hcfg]) hopen hlabels hreturned
      rw [hcfg] at hpassed
      refine ⟨?_, ih.2.passed hbatch hlease hpassed⟩
      have hstep := hpassed.left_le hbatch hlease
      rw [Nat.succ_mul]
      omega

theorem countP_add_le {Value : Type*} {good first second : Value → Bool} (values : List Value)
    (hfirst : ∀ value, first value = true → good value = true ∧ second value = false)
    (hsecond : ∀ value, second value = true → good value = true) :
    values.countP first + values.countP second ≤ values.countP good := by
  induction values with
  | nil => exact Nat.zero_le _
  | cons value values ih =>
      simp only [List.countP_cons]
      cases hone : first value with
      | true =>
          simp only [(hfirst value hone).1, (hfirst value hone).2, if_true, Bool.false_eq_true,
            if_false]
          omega
      | false =>
          cases htwo : second value with
          | true =>
              simp only [hsecond value htwo, if_true, Bool.false_eq_true, if_false]
              omega
          | false =>
              simp only [Bool.false_eq_true, if_false]
              omega

theorem left_le_unfinished (cfg : Config) (now : ℤ) (table : JobTable) :
    left cfg now table ≤ table.rows.countP (Unfinished ·) := by
  rw [left, expired, due, ClaimCall.eligible, ← List.countP_eq_length_filter]
  refine countP_add_le table.rows ?_ ?_
  · intro row hexpired
    have hrunning : row.state = .running := (of_decide_eq_true hexpired).1
    constructor
    · exact decide_eq_true ⟨by rw [hrunning]; decide, by rw [hrunning]; decide⟩
    · refine decide_eq_false fun heligible => ?_
      have hpending : row.state = .pending := heligible.1
      rw [hrunning] at hpending
      cases hpending
  · intro row heligible
    have hpending : row.state = .pending := (of_decide_eq_true heligible).1
    exact decide_eq_true ⟨by rw [hpending]; decide, by rw [hpending]; decide⟩

end Passes

/-! ## Result -/

/-- By that time every lease is over and every job is due. -/
def AllOver (now : ℤ) (table : JobTable) : Prop :=
  ∀ row ∈ table.rows, (∀ expires ∈ row.leaseExpiresAt, expires ≤ timestamptz now) ∧
    ∀ due ∈ row.scheduledAt, due ≤ timestamptz now

/-- What a row is once everything has been recovered: as it was if it was finished, claimed
anew, or dead if it was running on its last attempt. -/
inductive Recovered (cfg : Config) (now : ℤ) (row : Row) : Row → Prop
  | finished (hfinished : ¬ Unfinished row) : Recovered cfg now row row
  | claimed {later : Row} (hid : later.id = row.id)
      (hopen : row.state = .pending ∨
        row.state = .running ∧ row.attempt < row.taskMaxRetries)
      (hrunning : later.state = .running)
      (hlease : later.leaseExpiresAt = some (timestamptz (now + cfg.runningLease))) :
      Recovered cfg now row later
  | buried {later : Row} (hid : later.id = row.id) (hrunning : row.state = .running)
      (hspent : row.taskMaxRetries ≤ row.attempt) (hdead : later.state = .dead) :
      Recovered cfg now row later

section Result

variable {cfg : Config} {now : ℤ} {table : JobTable} {row later : Row}

/-- An unfinished row is in reach of the reaper or of a claim once its time has come. -/
theorem expired_or_eligible (hok : RowInvariant.RowOk row) (hunfinished : Unfinished row)
    (hover : (∀ expires ∈ row.leaseExpiresAt, expires ≤ timestamptz now) ∧
      ∀ due ∈ row.scheduledAt, due ≤ timestamptz now)
    (hqueue : cfg.queues = [] ∨ row.taskQueue ∈ cfg.queues) :
    Expired now row ∨ (claimCall cfg now).Eligible row := by
  rcases hok.state with hstate | hstate | hstate | hstate
  · exact .inr ⟨hstate, hover.2, hqueue, .inl rfl, .inl rfl, rfl⟩
  · obtain ⟨expires, hexpires⟩ := Option.ne_none_iff_exists'.mp
      (hok.leaseExpiresAt.mp (hok.leaseToken.mp hstate))
    exact .inl ⟨hstate, ⟨expires, hexpires, hover.1 expires hexpires⟩, rfl⟩
  · exact absurd hstate hunfinished.1
  · exact absurd hstate hunfinished.2

theorem not_mem_of_left_eq_zero (hleft : left cfg now table = 0) (hrow : row ∈ table.rows) :
    ¬ Expired now row ∧ ¬ (claimCall cfg now).Eligible row := by
  obtain ⟨hexpired, hdue⟩ := Nat.add_eq_zero_iff.mp hleft
  constructor
  · intro hover
    exact absurd (decide_eq_true hover) (List.countP_eq_zero.mp hexpired row hrow)
  · intro heligible
    have hmem := ClaimCall.mem_eligible.mpr ⟨hrow, heligible⟩
    rw [List.length_eq_zero_iff.mp hdue] at hmem
    cases hmem

theorem Fate.recovered (hfate : Fate cfg now row later) (hok : RowInvariant.RowOk row)
    (hover : (∀ expires ∈ row.leaseExpiresAt, expires ≤ timestamptz now) ∧
      ∀ due ∈ row.scheduledAt, due ≤ timestamptz now)
    (hqueue : cfg.queues = [] ∨ row.taskQueue ∈ cfg.queues)
    (hexpired : ¬ Expired now later) (heligible : ¬ (claimCall cfg now).Eligible later) :
    Recovered cfg now row later := by
  cases hfate with
  | same =>
      refine .finished fun hunfinished => ?_
      exact (expired_or_eligible hok hunfinished hover hqueue).elim hexpired heligible
  | requeued hid hrunning hbudget hpending hdue hqueued =>
      refine absurd ⟨hpending, ?_, ?_, .inl rfl, .inl rfl, rfl⟩ heligible
      · intro due hmem
        rw [hdue, Option.mem_some_iff] at hmem
        exact hmem.ge
      · rw [hqueued]
        exact hqueue
  | buried hid hrunning hspent hdead => exact .buried hid hrunning hspent hdead
  | claimed hid hopen hrunning hlease => exact .claimed hid hopen hrunning hlease

end Result

/-- Take any table that callers can have left behind, at a time when every lease is over and
every job due.  After as many passes as it takes batches for the unfinished jobs, each of
these has been claimed anew, or was on its last attempt and is dead, and no finished job
has changed. -/
theorem crash_recovery {world : JobMachine.World}
    (hreach : (JobMachine.machine RowInvariant.EmptyTable RowInvariant.AnyCall).Reachable world)
    {given : Config} {now : ℤ} (hover : AllOver now world.jobs)
    (hqueues : ∀ row ∈ world.jobs.rows,
      given.queues = [] ∨ row.taskQueue ∈ given.queues)
    (hretention : given.retention.completed ≤ 0 ∧ given.retention.dead ≤ 0)
    (hlease : 1000 ≤ (new given).runningLease) {count : ℕ} {after : JobTable}
    (hpasses : Passes (new given) now count world.jobs after)
    (henough : (world.jobs.rows.countP (Unfinished ·) : ℤ) ≤ count * (new given).batchSize) :
    ∀ row ∈ world.jobs.rows, ∃ later ∈ after.rows, Recovered (new given) now row later := by
  intro row hrow
  have hbatch := batchSize_new given
  have hoff : (new given).retention.completed ≤ 0 ∧ (new given).retention.dead ≤ 0 := hretention
  obtain ⟨hleft, hevolves⟩ := hpasses.left_evolves hoff hbatch hlease
  have hunfinished := left_le_unfinished (new given) now world.jobs
  have hbound : world.jobs.rows.countP (Unfinished ·) ≤ count * (new given).batchSize.toNat := by
    rw [← Int.toNat_of_nonneg hbatch.le] at henough
    exact_mod_cast henough
  have hzero : left (new given) now after = 0 := by omega
  obtain ⟨later, hlater, hfate⟩ := hevolves row hrow
  obtain ⟨hexpired, heligible⟩ := not_mem_of_left_eq_zero hzero hlater
  exact ⟨later, hlater, hfate.recovered ((RowInvariant.worldOk hreach).rows row hrow)
    (hover row hrow) (hqueues row hrow) hexpired heligible⟩

/-- The worker of a claimed job is gone. -/
def abandoned : JobMachine.World :=
  (JobMachine.machine RowInvariant.EmptyTable RowInvariant.AnyCall).run JobMachine.emptyWorld
    JobMachine.claimedRun

/-- A pass over what it left, at the third minute. -/
def recoveryPass : Pass := { singlePass with table := abandoned.jobs }

def recoveryLabels : List Label :=
  List.replicate 8 (.step (JobMachine.plainEnv 2 (3 * minute) "") true)

theorem crash_recovery_abandoned :
    abandoned.jobs.rows.map Row.state = [.running] ∧ ∀ row ∈ abandoned.jobs.rows,
      ∃ later ∈ (machine.run recoveryPass recoveryLabels).table.rows,
        Recovered (new ⟨second, 10, 0, [], ⟨0, 0, 0, 0⟩⟩) (3 * minute) row later := by
  have hstart : (JobMachine.machine RowInvariant.EmptyTable RowInvariant.AnyCall).Reachable
      JobMachine.emptyWorld := .start ⟨rfl, rfl, rfl, rfl, rfl⟩
  have hreach := hstart.run
    (JobMachine.allowedRun_claimedRun JobMachine.fromCaller_plainJob trivial)
  have hlabels : ∀ label ∈ recoveryLabels, Undisturbed (3 * minute) label := by
    intro label hlabel
    rw [List.eq_of_mem_replicate hlabel]
    exact ⟨rfl, rfl, rfl⟩
  have hreturned : (machine.run recoveryPass recoveryLabels).stage = .returned := by
    decide +kernel
  have hpasses : Passes (new ⟨second, 10, 0, [], ⟨0, 0, 0, 0⟩⟩) (3 * minute) 1 abandoned.jobs
      (machine.run recoveryPass recoveryLabels).table :=
    .snoc (.nil _) begins_singlePass rfl rfl hlabels hreturned
  refine ⟨by decide +kernel, ?_⟩
  refine crash_recovery hreach ?_ (fun _ _ => .inl rfl) ⟨le_rfl, le_rfl⟩ (by decide) hpasses ?_
  · unfold AllOver
    decide +kernel
  · decide +kernel

end Conduit.Recovery
