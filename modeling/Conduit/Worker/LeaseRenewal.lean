import Conduit.Jobs.Machine

/-!
# Lease renewal

While a handler runs, the goroutine of `startLeaseRenewal` renews the lease each time half
of it has passed, but not more often than once a second.  The claim itself is older: the
job has waited in the pool and for the execution lock since.  `RenewLease` reads the clock
of the worker for the new end of the lease, and its statement runs a while later; the
reaper compares the end with the clock of the database.

Either delay and the difference of the clocks are bounded by what the machine is given.
Other callers work on the table all the while, but nobody else has the token, and the job
is neither cancelled nor pruned.
-/

namespace Conduit.LeaseRenewal

open Models Transition Relational JobStore JobService JobWorker JobCalls
open JobMachine (World emptyWorld plainEnv plainJob)

/-- The interval of `startLeaseRenewal`. -/
def interval (lease : ℤ) : ℤ :=
  if effectiveLease lease / 2 < second then second else effectiveLease lease / 2

/-- Where the renewal of a claim is. -/
inductive Stage
  /-- The run has not come to `startLeaseRenewal` yet. -/
  | unstarted
  /-- The timer was set at that time. -/
  | armed (since : ℤ)
  /-- `RenewLease` has read the clock and its statement is to run. -/
  | calling (read : ℤ)
  /-- The statement has run and the timer is to be set again. -/
  | renewed
  /-- The run is over or a renewal failed. -/
  | stopped
  deriving DecidableEq

/-- A claim, the table and the worker's clock.  `basis` is the reading of the clock that
the lease in the row counts from, which the program does not keep. -/
structure Claim where
  lease : ℤ
  id : String
  leaseToken : String
  table : JobTable
  clock : ℤ
  basis : ℤ
  stage : Stage

inductive Label
  | tick (duration : ℕ)
  | start
  | fire
  | renew (env : Env)
  /-- A renewal fails on its way to the database. -/
  | fail
  | reset
  | stop
  /-- Another caller runs a statement. -/
  | other (env : Env) (call : Call)

namespace Claim

/-- The statement of `RenewLease`.  An error ends the goroutine. -/
def renew (claim : Claim) (env : Env) : Claim :=
  match claim.stage with
  | .calling read =>
      let answer := renewLease claim.table read env.dbNow claim.id claim.leaseToken
        (effectiveLease claim.lease)
      match answer.1 with
      | .ok _ => { claim with table := answer.2, basis := read, stage := .renewed }
      | .error _ => { claim with table := answer.2, stage := .stopped }
  | _ => claim

def step (claim : Claim) : Label → Claim
  | .tick duration => { claim with clock := claim.clock + duration }
  | .start | .reset => { claim with stage := .armed claim.clock }
  | .fire => { claim with stage := .calling claim.clock }
  | .renew env => claim.renew env
  | .fail | .stop => { claim with stage := .stopped }
  | .other env call => { claim with table := (call.effect env claim.table).table }

/-- The call is made by somebody who does not have the token, and neither cancels nor
deletes the job. -/
def Foreign (claim : Claim) : Call → Prop
  | .kafkaWrite job => job.leaseToken ≠ "" ∧ job.leaseToken ≠ claim.leaseToken
  | .renewLease _ leaseToken _ | .releaseClaim _ leaseToken _ _
  | .completeClaimedJob _ leaseToken _ | .failClaimedJob _ leaseToken _ _
  | .failWrite _ leaseToken _ _ _ => leaseToken ≠ claim.leaseToken
  | .cancelJob _ id => id ≠ claim.id
  | .deleteExec ids => claim.id ∉ ids
  | _ => True

/-- The row of the claim, with the lease that counts from `basis`. -/
def Kept (claim : Claim) (row : Row) : Prop :=
  row ∈ claim.table.rows ∧ Statement.Holds claim.id claim.leaseToken row ∧
    row.leaseExpiresAt = some (timestamptz (claim.basis + effectiveLease claim.lease))

end Claim

/-- From a reading of the worker's clock that a lease counts from, at most `interval` and
`latency` pass until the statement of the next renewal runs.  The clock of the database is
ahead by `skew` at most. -/
def machine (latency skew : ℤ) : Machine Claim Label where
  Init claim := (∃ row, claim.Kept row) ∧ claim.leaseToken ≠ "" ∧
    claim.basis ≤ claim.clock ∧
    claim.clock ≤ claim.basis + interval claim.lease + latency ∧ claim.stage = .unstarted
  Allowed claim
    | .tick duration => claim.stage ≠ .stopped →
        claim.clock + duration ≤ claim.basis + interval claim.lease + latency
    | .start => claim.stage = .unstarted
    | .fire => ∃ since, claim.stage = .armed since ∧ since + interval claim.lease ≤ claim.clock
    | .renew _ => ∃ read, claim.stage = .calling read
    | .fail => ∃ read, claim.stage = .calling read
    | .reset => claim.stage = .renewed
    | .stop => True
    | .other env call => claim.Foreign call ∧ env.dbNow ≤ claim.clock + skew
  step := Claim.step

/-! ## What others can do -/

section Others

variable {claim : Claim} {env : Env} {call : Call} {row : Row}

/-- No statement of another caller selects a row whose lease is not over. -/
theorem Claim.Foreign.not_selects (hforeign : claim.Foreign call)
    (hrow : row ∈ claim.table.rows) (hholds : Statement.Holds claim.id claim.leaseToken row)
    (halive : ¬ LeaseExpired env.dbNow env.locked row) {statement : Statement}
    (hstatement : call.statement env claim.table = some statement) :
    ¬ statement.Selects row := by
  intro hselects
  obtain ⟨hid, hrunning, htoken⟩ := hholds
  have hpresented : ∀ {id leaseToken : String}, leaseToken ≠ claim.leaseToken →
      ¬ Statement.Holds id leaseToken row := by
    intro id leaseToken hne hother
    exact hne (Option.some.inj (hother.2.2.symm.trans htoken))
  cases issues_of_statement hstatement with
  | claimNextJob =>
      obtain ⟨filter, hpending, -⟩ := claimable_of_statement hstatement hrow hselects
      rw [hrunning] at hpending
      cases hpending
  | kafkaWrite job =>
      rcases hselects.2 with hempty | hsame | ⟨hpending, -⟩
      · exact hforeign.1 hempty
      · exact hforeign.2 (Option.some.inj (hsame.symm.trans htoken))
      · rw [hrunning] at hpending
        cases hpending
  | renewLease | releaseClaim | completeClaimedJob | failClaimedJob | failWrite =>
      exact hpresented hforeign hselects
  | cancelJob tenant id => exact hforeign (hselects.1.symm.trans hid)
  | requeueDeadJob tenant id =>
      have hdead : row.state = .dead := hselects.2.1
      rw [hrunning] at hdead
      cases hdead
  | requeueExpiredRunning limit expired dbNow heq =>
      exact halive (leaseExpired_of_selects heq hrow hselects)

/-- A statement of another caller leaves such a row alone. -/
theorem Claim.Foreign.mem_effect (hforeign : claim.Foreign call)
    (hrow : row ∈ claim.table.rows) (hholds : Statement.Holds claim.id claim.leaseToken row)
    (halive : ¬ LeaseExpired env.dbNow env.locked row) :
    row ∈ (call.effect env claim.table).table.rows := by
  have hdoes := effect_does env claim.table call
  generalize (call.effect env claim.table).table = after at hdoes ⊢
  generalize (call.effect env claim.table).events = events at hdoes
  cases hdoes with
  | nothing | found => exact hrow
  | updated statement hstatement =>
      have hnot := hforeign.not_selects hrow hholds halive hstatement
      exact Table.mem_exec.mpr ⟨row, hrow, if_neg hnot⟩
  | inserted job after hcall hcreate =>
      exact (Table.mem_insert (createJob_eq_ok hcreate)).mpr (.inl hrow)
  | deleted ids hcall =>
      rw [hcall] at hforeign
      refine Table.mem_delete.mpr ⟨hrow, ?_⟩
      rw [hholds.1]
      exact hforeign

end Others

/-! ## Timing -/

section Timing

variable {latency skew : ℤ} {claim : Claim}

/-- A renewal reads the clock an interval after the reading before it, or later. -/
structure Timing (claim : Claim) : Prop where
  leaseToken : claim.leaseToken ≠ ""
  basis : claim.basis ≤ claim.clock
  armed : ∀ since, claim.stage = .armed since → claim.basis ≤ since
  calling : ∀ read, claim.stage = .calling read →
    claim.basis + interval claim.lease ≤ read ∧ read ≤ claim.clock

theorem second_le_interval (lease : ℤ) : second ≤ interval lease := by
  rw [interval]
  split
  · exact le_rfl
  · exact not_lt.mp ‹_›

/-- A renewal either takes the lease over to its own reading, or ends. -/
theorem Claim.renew_cases (claim : Claim) (env : Env) :
    claim.renew env = claim ∨
      (∃ read, claim.stage = .calling read ∧ claim.renew env =
        { claim with table := (renewLease claim.table read env.dbNow claim.id claim.leaseToken
          (effectiveLease claim.lease)).2, basis := read, stage := .renewed }) ∨
      ∃ table, claim.renew env = { claim with table, stage := .stopped } := by
  rw [Claim.renew]
  cases claim.stage with
  | calling read =>
      dsimp only
      split
      · exact .inr (.inl ⟨read, rfl, rfl⟩)
      · exact .inr (.inr ⟨_, rfl⟩)
  | _ => exact .inl rfl

theorem Timing.step {label : Label} (htiming : Timing claim)
    (hallowed : (machine latency skew).Allowed claim label) : Timing (claim.step label) := by
  obtain ⟨htoken, hbasis, harmed, hcalling⟩ := htiming
  have hinterval := second_le_interval claim.lease
  have hpositive : (0 : ℤ) < second := by decide
  cases label with
  | tick duration =>
      have hlater : claim.clock ≤ claim.clock + duration :=
        le_add_of_nonneg_right (Int.natCast_nonneg duration)
      exact ⟨htoken, hbasis.trans hlater, harmed, fun read hread =>
        ⟨(hcalling read hread).1, (hcalling read hread).2.trans hlater⟩⟩
  | start | reset =>
      refine ⟨htoken, hbasis, ?_, nofun⟩
      rintro since ⟨⟩
      exact hbasis
  | fire =>
      obtain ⟨since, hsince, hfired⟩ := hallowed
      refine ⟨htoken, hbasis, nofun, ?_⟩
      rintro read ⟨⟩
      exact ⟨(Int.add_le_add_right (harmed since hsince) _).trans hfired, le_rfl⟩
  | renew env =>
      change Timing (claim.renew env)
      rcases claim.renew_cases env with hsame | ⟨read, hread, hrenewed⟩ | ⟨table, hended⟩
      · rw [hsame]
        exact ⟨htoken, hbasis, harmed, hcalling⟩
      · rw [hrenewed]
        exact ⟨htoken, (hcalling read hread).2, nofun, nofun⟩
      · rw [hended]
        exact ⟨htoken, hbasis, nofun, nofun⟩
  | fail | stop => exact ⟨htoken, hbasis, nofun, nofun⟩
  | other env call => exact ⟨htoken, hbasis, harmed, hcalling⟩

theorem timing (hreach : (machine latency skew).Reachable claim) : Timing claim := by
  refine hreach.invariant Timing ?_ fun _ _ _ hallowed htiming => htiming.step hallowed
  rintro initial ⟨-, htoken, hbasis, -, hstage⟩
  refine ⟨htoken, hbasis, ?_, ?_⟩
  · intro since hsince
    rw [hstage] at hsince
    cases hsince
  · intro read hread
    rw [hstage] at hread
    cases hread

end Timing

/-! ## The claim is kept -/

section Kept

variable {latency skew : ℤ} {claim : Claim}

/-- The renewal goes on in time. -/
structure Renewing (latency : ℤ) (claim : Claim) : Prop where
  row : ∃ row, claim.Kept row
  clock : claim.clock ≤ claim.basis + interval claim.lease + latency

/-- The delays and the difference of the clocks fit into a lease. -/
def InTime (latency skew : ℤ) (claim : Claim) : Prop :=
  interval claim.lease + latency + skew + 1000 ≤ effectiveLease claim.lease

theorem lt_timestamptz (instant : ℤ) : instant < timestamptz instant + 1000 := by
  unfold timestamptz
  omega

/-- A lease that is renewed in time is not over for the reaper. -/
theorem Renewing.not_leaseExpired (hrenewing : Renewing latency claim)
    (hintime : InTime latency skew claim) {row : Row} (hkept : claim.Kept row) {dbNow : ℤ}
    (hskew : dbNow ≤ claim.clock + skew) (locked : String → Bool) :
    ¬ LeaseExpired dbNow locked row := by
  rintro ⟨-, ⟨expires, hexpires, hover⟩, -⟩
  rw [hkept.2.2, Option.mem_some_iff] at hexpires
  have hend := lt_timestamptz (claim.basis + effectiveLease claim.lease)
  have hnow := timestamptz_le dbNow
  have hclock := hrenewing.clock
  unfold InTime at hintime
  omega

/-- A renewal moves the end of the lease on. -/
theorem Claim.Kept.renewLease {row : Row} (hkept : claim.Kept row)
    (htoken : claim.leaseToken ≠ "") (read dbNow : ℤ) :
    ∃ renewed ∈ (renewLease claim.table read dbNow claim.id claim.leaseToken
        (effectiveLease claim.lease)).2.rows,
      Statement.Holds claim.id claim.leaseToken renewed ∧
      renewed.leaseExpiresAt = some (timestamptz (read + effectiveLease claim.lease)) := by
  obtain ⟨hrow, hholds, -⟩ := hkept
  rw [JobStore.renewLease, renewLeaseStatement, withToken, if_neg htoken]
  refine ⟨_, Table.mem_exec.mpr ⟨row, hrow, if_pos hholds⟩, hholds, rfl⟩

theorem Renewing.renew {env : Env} (htiming : Timing claim) (hrenewing : Renewing latency claim)
    (hstage : (claim.renew env).stage ≠ .stopped) : Renewing latency (claim.renew env) := by
  obtain ⟨⟨row, hkept⟩, hclock⟩ := hrenewing
  rcases claim.renew_cases env with hsame | ⟨read, hread, hrenewed⟩ | ⟨table, hended⟩
  · rw [hsame]
    exact ⟨⟨row, hkept⟩, hclock⟩
  · obtain ⟨hinterval, hclockRead⟩ := htiming.calling read hread
    have hpositive : second ≤ interval claim.lease := second_le_interval claim.lease
    have hsecond : (0 : ℤ) < second := by decide
    rw [hrenewed]
    refine ⟨hkept.renewLease htiming.leaseToken read env.dbNow, ?_⟩
    change claim.clock ≤ read + interval claim.lease + latency
    omega
  · rw [hended] at hstage
    exact absurd rfl hstage

theorem Renewing.other {env : Env} {call : Call} (hrenewing : Renewing latency claim)
    (hintime : InTime latency skew claim) (hforeign : claim.Foreign call)
    (hskew : env.dbNow ≤ claim.clock + skew) :
    Renewing latency (claim.step (.other env call)) := by
  obtain ⟨row, hkept⟩ := hrenewing.row
  have halive := hrenewing.not_leaseExpired hintime hkept hskew env.locked
  exact ⟨⟨row, hforeign.mem_effect hkept.1 hkept.2.1 halive, hkept.2⟩, hrenewing.clock⟩

theorem Renewing.step {label : Label} (htiming : Timing claim)
    (hrenewing : claim.stage ≠ .stopped → Renewing latency claim)
    (hintime : InTime latency skew claim)
    (hallowed : (machine latency skew).Allowed claim label)
    (hstage : (claim.step label).stage ≠ .stopped) : Renewing latency (claim.step label) := by
  cases label with
  | tick duration => exact ⟨(hrenewing hstage).row, hallowed hstage⟩
  | start | reset =>
      have halive : claim.stage ≠ .stopped := by
        rw [hallowed]
        nofun
      exact ⟨(hrenewing halive).row, (hrenewing halive).clock⟩
  | fire =>
      obtain ⟨since, hsince, -⟩ := hallowed
      have halive : claim.stage ≠ .stopped := by
        rw [hsince]
        nofun
      exact ⟨(hrenewing halive).row, (hrenewing halive).clock⟩
  | renew env =>
      obtain ⟨read, hread⟩ := hallowed
      have halive : claim.stage ≠ .stopped := by
        rw [hread]
        nofun
      exact (hrenewing halive).renew htiming hstage
  | fail | stop => exact absurd rfl hstage
  | other env call => exact (hrenewing hstage).other hintime hallowed.1 hallowed.2

end Kept

/-! ## Results -/

section Results

variable {latency skew : ℤ} {claim : Claim}

/-- A lease of a second or less is over each time a renewal is about to extend it, for a
reaper whose clock is not behind the worker's. -/
theorem short_lease_lapses (hreach : (machine latency skew).Reachable claim)
    (hshort : effectiveLease claim.lease ≤ second) {read : ℤ}
    (hstage : claim.stage = .calling read) {row : Row} (hkept : claim.Kept row) {dbNow : ℤ}
    (hdbNow : claim.clock ≤ dbNow) {locked : String → Bool} (hfree : locked row.id = false) :
    LeaseExpired dbNow locked row := by
  obtain ⟨hinterval, hread⟩ := (timing hreach).calling read hstage
  have hsecond := second_le_interval claim.lease
  refine ⟨hkept.2.1.2.1, ⟨_, hkept.2.2, ?_⟩, hfree⟩
  unfold timestamptz
  omega

end Results

/-! ## A claim that is renewed, and one that is too short -/

/-- A job is enqueued, and claimed a minute later. -/
def claimedTable (lease : ℤ) : JobTable :=
  ((emptyWorld.perform (plainEnv 1 0 "job-1") (.enqueue plainJob)).perform
    (plainEnv 1 minute "") (.claimNextJob lease ⟨anyTenant, [], []⟩)).jobs

def freshClaim (lease : ℤ) : Claim where
  lease := lease
  id := "job-1"
  leaseToken := newLeaseToken fun _ => 1
  table := claimedTable lease
  clock := minute
  basis := minute
  stage := .unstarted

/-- The row of the claim, among the rows of its table. -/
theorem exists_kept_iff (claim : Claim) :
    (∃ row, claim.Kept row) ↔ ∃ row ∈ claim.table.rows,
      Statement.Holds claim.id claim.leaseToken row ∧
        row.leaseExpiresAt = some (timestamptz (claim.basis + effectiveLease claim.lease)) :=
  Iff.rfl

theorem reachable_freshClaim {lease : ℤ} (hkept : ∃ row, (freshClaim lease).Kept row) :
    (machine second 0).Reachable (freshClaim lease) := by
  have hinterval := second_le_interval lease
  have hsecond : (0 : ℤ) < second := by decide
  refine .start ⟨hkept, newLeaseToken_ne_empty _, le_rfl, ?_, rfl⟩
  change minute ≤ minute + interval lease + second
  omega

/-- The first renewal is about to run. -/
def callingRun (lease : ℤ) : List Label :=
  [.start, .tick (interval lease).toNat, .fire]

theorem reachable_callingRun {lease : ℤ} (hkept : ∃ row, (freshClaim lease).Kept row) :
    (machine second 0).Reachable
      ((machine second 0).run (freshClaim lease) (callingRun lease)) := by
  have hinterval := second_le_interval lease
  have hsecond : (0 : ℤ) < second := by decide
  have hnat : ((interval lease).toNat : ℤ) = interval lease := Int.toNat_of_nonneg (by omega)
  refine (reachable_freshClaim hkept).run ⟨rfl, ?_, ⟨minute, rfl, ?_⟩, trivial⟩
  · intro _
    change minute + ((interval lease).toNat : ℤ) ≤ minute + interval lease + second
    omega
  · change minute + interval lease ≤ minute + ((interval lease).toNat : ℤ)
    omega

theorem short_lease_lapses_callingRun :
    ∃ row ∈ ((machine second 0).run (freshClaim second) (callingRun second)).table.rows,
      LeaseExpired (61 * second) (fun _ => false) row := by
  have hkept : ∃ row, (freshClaim second).Kept row := by
    rw [exists_kept_iff]
    decide +kernel
  have hreach := reachable_callingRun hkept
  obtain ⟨row, hrow⟩ := hkept
  exact ⟨row, hrow.1, short_lease_lapses hreach (by decide +kernel)
    (show _ = Stage.calling (61 * second) from by decide +kernel) hrow (by decide +kernel) rfl⟩

end Conduit.LeaseRenewal
