import Conduit.Scheduler.Replicas

/-!
# One job for each fire

Two mechanisms keep replicas from firing an instant twice: the idempotency key of
a fire's job, and the condition on `next_run_at` in `AdvanceSchedule`.  The key
works as long as the job is in the table.  It is needed while a replica holds the
schedule row of the fire, and also while the schedule is still due for it: a
replica that crashed between its two writes leaves the schedule as it was, and the
next one to read it enqueues again.
-/

namespace Conduit.OneJobPerFire

open Models Relational JobStore JobService JobCalls JobMachine IdempotentEnqueue ScheduleStore
open Scheduler Replicas Transition

/-- The number of jobs created for a fire of the schedule. -/
def createdFor (system : System) (row : ScheduleRow) (fireAt : ℤ) : ℕ :=
  system.world.history.countP
    (insertedFor (fireTenant row.tenantID) (fireKey row.id fireAt))

/-- The number of successful advances that observed the instant. -/
def advancedFrom (system : System) (id : String) (fireAt : ℤ) : ℕ :=
  system.advances.countP fun advance => advance.id = id ∧ advance.observed = fireAt

/-- What holds of a schedule: each of its fires has one job and one advance at
most, and a step that moves its next fire instant moves it forward, by one
advance, while the job of the fire is in the table. -/
structure FiresOnce (Spared : System → Row → Prop) (system : System) (row : ScheduleRow) :
    Prop where
  created_once : ∀ fireAt, createdFor system row fireAt ≤ 1
  advanced_once : ∀ fireAt, advancedFrom system row.id fireAt ≤ 1
  increasing : ∀ advance ∈ system.advances, advance.observed < advance.next
  moves : ∀ label, (machine Spared).Allowed system label →
    ∀ later ∈ (system.step label).schedules.rows, later.id = row.id →
      later.nextRunAt ≠ row.nextRunAt →
      row.nextRunAt < later.nextRunAt ∧
      (system.step label).advances =
        ⟨row.id, row.nextRunAt, later.nextRunAt⟩ :: system.advances ∧
      ∃ job ∈ system.world.jobs.rows, JobFor row.tenantID row.id row.nextRunAt job

/-- Retention spares the job of a fire while a replica holds the schedule row, and
also while the schedule is still due for that fire. -/
def HeldOrAwaited (system : System) (job : Row) : Prop :=
  Held system job ∨ Awaited system job

/-! ## The invariant -/

/-- What a replica is about to write is for the first of its due rows. -/
structure StageOk (jobs : JobTable) (replica : Replica) : Prop where
  enqueueing : ∀ sched next call, replica.due.head? = some sched →
    replica.stage = .enqueueing next call →
    (sched.nextRunAt < next ∧ next % minute = 0) ∧
      ∃ job, enqueues call = some job ∧ job.tenantID = fireTenant sched.tenantID ∧
        job.idempotencyKey = fireKey sched.id sched.nextRunAt
  advancing : ∀ sched next jobID, replica.due.head? = some sched →
    replica.stage = .advancing next jobID →
    (sched.nextRunAt < next ∧ next % minute = 0) ∧
      ∃ job ∈ jobs.rows, JobFor sched.tenantID sched.id sched.nextRunAt job

/-- A replica may still enqueue for the fire: it holds the schedule row, or may
read it. -/
def Active (system : System) (row : ScheduleRow) (fireAt : ℤ) : Prop :=
  unix fireAt = unix row.nextRunAt ∨
    ∃ replica ∈ system.replicas, ∃ sched ∈ replica.due,
      sched.id = row.id ∧ unix fireAt = unix sched.nextRunAt

structure SystemInv (system : System) : Prop where
  stored : ∀ row ∈ system.schedules.rows, timestamptz row.nextRunAt = row.nextRunAt
  held : ∀ replica ∈ system.replicas, ∀ sched ∈ replica.due,
    timestamptz sched.nextRunAt = sched.nextRunAt ∧
      ∃ row ∈ system.schedules.rows, row.id = sched.id ∧ row.tenantID = sched.tenantID ∧
        sched.nextRunAt ≤ row.nextRunAt
  stages : ∀ replica ∈ system.replicas, StageOk system.world.jobs replica
  recorded : ∀ advance ∈ system.advances, advance.observed < advance.next ∧
    ∀ row ∈ system.schedules.rows, row.id = advance.id → advance.next ≤ row.nextRunAt
  advancedOnce : ∀ id fireAt, advancedFrom system id fireAt ≤ 1
  createdOnce : ∀ row ∈ system.schedules.rows, ∀ fireAt, createdFor system row fireAt ≤ 1
  created : ∀ row ∈ system.schedules.rows, ∀ fireAt, createdFor system row fireAt ≠ 0 →
    unix fireAt ≤ unix row.nextRunAt ∧
      (Active system row fireAt →
        ∃ job ∈ system.world.jobs.rows, JobFor row.tenantID row.id fireAt job)

section Invariant

variable {system : System}

theorem SystemInv.init
    (hstored : ∀ row ∈ system.schedules.rows, timestamptz row.nextRunAt = row.nextRunAt)
    (hidle : ∀ replica ∈ system.replicas, replica.due = [])
    (hhistory : system.world.history = []) (hadvances : system.advances = []) :
    SystemInv system where
  stored := hstored
  held := by
    intro replica hreplica sched hsched
    rw [hidle replica hreplica] at hsched
    cases hsched
  stages := by
    intro replica hreplica
    constructor
    · intro sched next call hhead
      rw [hidle replica hreplica] at hhead
      cases hhead
    · intro sched next jobID hhead
      rw [hidle replica hreplica] at hhead
      cases hhead
  recorded := by
    intro advance hadvance
    rw [hadvances] at hadvance
    cases hadvance
  advancedOnce := by
    intro id fireAt
    rw [advancedFrom, hadvances]
    exact Nat.zero_le 1
  createdOnce := by
    intro row _ fireAt
    rw [createdFor, hhistory]
    exact Nat.zero_le 1
  created := by
    intro row _ fireAt hcreated
    rw [createdFor, hhistory] at hcreated
    exact absurd rfl hcreated

/-- A replica may let go of rows it holds and take rows that are in the table. -/
theorem SystemInv.put (hinv : SystemInv system) (index : ℕ) {replica : Replica}
    (hdue : ∀ sched ∈ replica.due,
      (∃ other ∈ system.replicas, sched ∈ other.due) ∨
        ∃ row ∈ system.schedules.rows, sched = scanSchedule row)
    (hstage : StageOk system.world.jobs replica) : SystemInv (system.put index replica) := by
  refine { hinv with held := ?_, stages := ?_, created := ?_ }
  · intro other hother sched hsched
    rcases List.mem_or_eq_of_mem_set hother with hold | rfl
    · exact hinv.held other hold sched hsched
    · rcases hdue sched hsched with ⟨holder, hholder, hheld⟩ | ⟨row, hrow, rfl⟩
      · exact hinv.held holder hholder sched hheld
      · exact ⟨hinv.stored row hrow, row, hrow, rfl, rfl, le_rfl⟩
  · intro other hother
    rcases List.mem_or_eq_of_mem_set hother with hold | rfl
    · exact hinv.stages other hold
    · exact hstage
  · intro row hrow fireAt hcreated
    obtain ⟨hle, hexists⟩ := hinv.created row hrow fireAt hcreated
    refine ⟨hle, ?_⟩
    rintro (hdueNow | ⟨other, hother, sched, hsched, hid, hunix⟩)
    · exact hexists (.inl hdueNow)
    · rcases List.mem_or_eq_of_mem_set hother with hold | rfl
      · exact hexists (.inr ⟨other, hold, sched, hsched, hid, hunix⟩)
      · rcases hdue sched hsched with ⟨holder, hholder, hheld⟩ | ⟨read, hread, rfl⟩
        · exact hexists (.inr ⟨holder, hholder, sched, hheld, hid, hunix⟩)
        · have hself : read = row := system.schedules.key_unique hread hrow hid
          rw [hself] at hunix
          exact hexists (.inl hunix)

/-- The jobs of fires that are still active are those retention spares. -/
theorem SystemInv.spared (hinv : SystemInv system) {row : ScheduleRow}
    (hrow : row ∈ system.schedules.rows) {fireAt : ℤ} (hactive : Active system row fireAt)
    {job : Row} (hjob : JobFor row.tenantID row.id fireAt job) : HeldOrAwaited system job := by
  rcases hactive with hunix | ⟨replica, hreplica, sched, hsched, hid, hunix⟩
  · right
    refine ⟨row, hrow, ?_⟩
    rw [JobFor, ← fireKey_eq_of_unix row.id hunix]
    exact hjob
  · left
    refine ⟨replica, hreplica, sched, hsched, ?_⟩
    obtain ⟨-, read, hread, hreadID, htenant, -⟩ := hinv.held replica hreplica sched hsched
    have hself : read = row := system.schedules.key_unique hread hrow (hreadID.trans hid)
    rw [hself] at htenant
    rw [JobFor, ← htenant, hid, ← fireKey_eq_of_unix row.id hunix]
    exact hjob

/-- What a change of the job table keeps: the spared rows stay under their keys, and
a job for a fire is inserted only by a replica that holds its schedule row. -/
structure Keeps (system : System) (jobs : JobTable) (events : List Event) : Prop where
  spared : ∀ job ∈ system.world.jobs.rows, HeldOrAwaited system job →
    ∃ later ∈ jobs.rows, later.tenantID = job.tenantID ∧
      later.idempotencyKey = job.idempotencyKey
  inserts : ∀ row ∈ system.schedules.rows, ∀ fireAt,
    events.countP (insertedFor (fireTenant row.tenantID) (fireKey row.id fireAt)) = 0 ∨
      (events.countP (insertedFor (fireTenant row.tenantID) (fireKey row.id fireAt)) = 1 ∧
        (∀ job ∈ system.world.jobs.rows, ¬ JobFor row.tenantID row.id fireAt job) ∧
        (∃ job ∈ jobs.rows, JobFor row.tenantID row.id fireAt job) ∧
        ∃ replica ∈ system.replicas, ∃ sched ∈ replica.due,
          sched.id = row.id ∧ unix fireAt = unix sched.nextRunAt)

theorem Keeps.jobFor {jobs : JobTable} {events : List Event} (hkeeps : Keeps system jobs events)
    {tenant id : String} {fireAt : ℤ} {job : Row} (hjob : job ∈ system.world.jobs.rows)
    (hfor : JobFor tenant id fireAt job) (hspared : HeldOrAwaited system job) :
    ∃ later ∈ jobs.rows, JobFor tenant id fireAt later := by
  obtain ⟨later, hlater, htenant, hkey⟩ := hkeeps.spared job hjob hspared
  exact ⟨later, hlater, htenant.trans hfor.1, hkey.trans hfor.2⟩

theorem StageOk.keeps {jobs : JobTable} {events : List Event} (hkeeps : Keeps system jobs events)
    {replica : Replica} (hreplica : replica ∈ system.replicas)
    (hstage : StageOk system.world.jobs replica) : StageOk jobs replica := by
  refine ⟨hstage.enqueueing, ?_⟩
  intro sched next jobID hhead hadvancing
  obtain ⟨hlater, job, hjob, hfor⟩ := hstage.advancing sched next jobID hhead hadvancing
  refine ⟨hlater, hkeeps.jobFor hjob hfor (.inl ⟨replica, hreplica, sched, ?_, hfor⟩)⟩
  exact List.mem_of_head? hhead

theorem SystemInv.absorb (hinv : SystemInv system) {world : World} {events : List Event}
    (hhistory : world.history = events ++ system.world.history)
    (hkeeps : Keeps system world.jobs events) : SystemInv { system with world } := by
  have hsplit : ∀ row fireAt, createdFor { system with world } row fireAt =
      events.countP (insertedFor (fireTenant row.tenantID) (fireKey row.id fireAt)) +
        createdFor system row fireAt := by
    intro row fireAt
    rw [createdFor, createdFor, ← List.countP_append, ← hhistory]
  -- A job is inserted for a fire only when none was created for it before.
  have hfirst : ∀ row ∈ system.schedules.rows, ∀ fireAt,
      (∀ job ∈ system.world.jobs.rows, ¬ JobFor row.tenantID row.id fireAt job) →
      Active system row fireAt → createdFor system row fireAt = 0 := by
    intro row hrow fireAt hnone hactive
    by_contra hcreated
    obtain ⟨job, hjob, hfor⟩ := (hinv.created row hrow fireAt hcreated).2 hactive
    exact hnone job hjob hfor
  refine { hinv with stages := ?_, createdOnce := ?_, created := ?_ }
  · intro replica hreplica
    exact (hinv.stages replica hreplica).keeps hkeeps hreplica
  · intro row hrow fireAt
    rw [hsplit]
    rcases hkeeps.inserts row hrow fireAt with hnone | ⟨hone, hfree, -, hholds⟩
    · rw [hnone, Nat.zero_add]
      exact hinv.createdOnce row hrow fireAt
    · rw [hone, hfirst row hrow fireAt hfree (.inr hholds)]
  · intro row hrow fireAt hcreated
    rw [hsplit] at hcreated
    rcases hkeeps.inserts row hrow fireAt with
      hnone | ⟨-, -, hexists, replica, hreplica, sched, hsched, hid, hunix⟩
    · rw [hnone, Nat.zero_add] at hcreated
      obtain ⟨hle, hbefore⟩ := hinv.created row hrow fireAt hcreated
      refine ⟨hle, ?_⟩
      intro hactive
      obtain ⟨job, hjob, hfor⟩ := hbefore hactive
      exact hkeeps.jobFor hjob hfor (hinv.spared hrow hactive hfor)
    · refine ⟨?_, fun _ => hexists⟩
      obtain ⟨-, read, hread, hreadID, -, hle⟩ := hinv.held replica hreplica sched hsched
      have hself : read = row := system.schedules.key_unique hread hrow (hreadID.trans hid)
      rw [hunix, ← hself]
      exact unix_mono hle

end Invariant

/-! ## Advancing -/

/-- The system after `AdvanceSchedule` for a row that was read before. -/
def advanced (system : System) (sched : Schedule) (next : ℤ) (jobID : String) (dbNow : ℤ) :
    System :=
  let answer := advanceSchedule system.schedules dbNow sched.id sched.nextRunAt next jobID
  { system with
    schedules := answer.2
    advances := if answer.1 then ⟨sched.id, sched.nextRunAt, next⟩ :: system.advances
      else system.advances }

section Advancing

variable {system : System} {sched : Schedule} {next : ℤ} (jobID : String) (dbNow : ℤ)

/-- A row after an advance is the same as before, or it was due for the observed
instant and is now due for the next one. -/
theorem mem_advanced (hobserved : timestamptz sched.nextRunAt = sched.nextRunAt)
    (haligned : next % minute = 0) {row : ScheduleRow}
    (hrow : row ∈ (advanced system sched next jobID dbNow).schedules.rows) :
    ∃ old ∈ system.schedules.rows, row.id = old.id ∧ row.tenantID = old.tenantID ∧
      ((row.nextRunAt = old.nextRunAt ∧
          ¬ (old.id = sched.id ∧ old.nextRunAt = sched.nextRunAt)) ∨
        (old.id = sched.id ∧ old.nextRunAt = sched.nextRunAt ∧ row.nextRunAt = next)) := by
  obtain ⟨old, hold, hid, htenant, -, -, hnextRunAt⟩ := mem_advanceSchedule hrow
  rw [hobserved, timestamptz_of_minute haligned] at hnextRunAt
  refine ⟨old, hold, hid, htenant, ?_⟩
  split at hnextRunAt
  · rename_i hselected
    exact .inr ⟨hselected.1, hselected.2, hnextRunAt⟩
  · rename_i hunselected
    exact .inl ⟨hnextRunAt, hunselected⟩

theorem exists_mem_advanced (hobserved : timestamptz sched.nextRunAt = sched.nextRunAt)
    (hlater : sched.nextRunAt < next) (haligned : next % minute = 0) {old : ScheduleRow}
    (hold : old ∈ system.schedules.rows) :
    ∃ row ∈ (advanced system sched next jobID dbNow).schedules.rows,
      row.id = old.id ∧ row.tenantID = old.tenantID ∧ old.nextRunAt ≤ row.nextRunAt := by
  obtain ⟨row, hrow, hid⟩ : ∃ row ∈ (advanced system sched next jobID dbNow).schedules.rows,
      row.id = old.id := exists_mem_advanceSchedule hold
  obtain ⟨before, hbefore, hbeforeID, htenant, hcases⟩ :=
    mem_advanced jobID dbNow hobserved haligned hrow
  have hself : before = old :=
    system.schedules.key_unique hbefore hold (hbeforeID.symm.trans hid)
  rw [hself] at htenant hcases
  refine ⟨row, hrow, hid, htenant, ?_⟩
  rcases hcases with ⟨hsame, -⟩ | ⟨-, hdue, hmoved⟩
  · exact le_of_eq hsame.symm
  · rw [hdue, hmoved]
    exact le_of_lt hlater

/-- An advance succeeds exactly when the schedule is still due for the observed
instant. -/
theorem advances_advanced (system : System) (next : ℤ)
    (hobserved : timestamptz sched.nextRunAt = sched.nextRunAt) :
    ((∃ row ∈ system.schedules.rows, row.id = sched.id ∧ row.nextRunAt = sched.nextRunAt) ∧
        (advanced system sched next jobID dbNow).advances =
          ⟨sched.id, sched.nextRunAt, next⟩ :: system.advances) ∨
      ((advanced system sched next jobID dbNow).advances = system.advances ∧
        ¬ ∃ row ∈ system.schedules.rows,
          row.id = sched.id ∧ row.nextRunAt = sched.nextRunAt) := by
  have hiff := advanceSchedule_fst system.schedules dbNow sched.id sched.nextRunAt next jobID
  rw [hobserved] at hiff
  by_cases hadvanced : (advanceSchedule system.schedules dbNow sched.id sched.nextRunAt next
      jobID).1 = true
  · exact .inl ⟨hiff.1 hadvanced, if_pos hadvanced⟩
  · exact .inr ⟨if_neg hadvanced, mt hiff.2 hadvanced⟩

theorem SystemInv.recorded_advanced (hinv : SystemInv system)
    (hobserved : timestamptz sched.nextRunAt = sched.nextRunAt)
    (hlater : sched.nextRunAt < next) (haligned : next % minute = 0) :
    ∀ advance ∈ (advanced system sched next jobID dbNow).advances,
      advance.observed < advance.next ∧
        ∀ row ∈ (advanced system sched next jobID dbNow).schedules.rows,
          row.id = advance.id → advance.next ≤ row.nextRunAt := by
  -- An earlier advance of a schedule ended at or before where the schedule is now.
  have hearlier : ∀ advance ∈ system.advances, advance.observed < advance.next ∧
      ∀ row ∈ (advanced system sched next jobID dbNow).schedules.rows,
        row.id = advance.id → advance.next ≤ row.nextRunAt := by
    intro advance hadvance
    obtain ⟨hincreasing, hbounded⟩ := hinv.recorded advance hadvance
    refine ⟨hincreasing, ?_⟩
    intro row hrow hid
    obtain ⟨old, hold, holdID, -, hcases⟩ := mem_advanced jobID dbNow hobserved haligned hrow
    have hle := hbounded old hold (holdID.symm.trans hid)
    rcases hcases with ⟨hsame, -⟩ | ⟨-, hdue, hmoved⟩
    · rw [hsame]
      exact hle
    · rw [hmoved]
      exact le_trans hle (le_of_lt (hdue ▸ hlater))
  intro advance hadvance
  rcases advances_advanced jobID dbNow system next hobserved with
    ⟨⟨due, hdue, hdueID, hdueAt⟩, hadvances⟩ | ⟨hadvances, -⟩
  · rw [hadvances] at hadvance
    rcases List.mem_cons.1 hadvance with rfl | hold
    · refine ⟨hlater, ?_⟩
      intro row hrow hid
      obtain ⟨old, hold, holdID, -, hcases⟩ := mem_advanced jobID dbNow hobserved haligned hrow
      have hself : old = due := system.schedules.key_unique hold hdue
        (holdID.symm.trans (hid.trans hdueID.symm))
      rcases hcases with ⟨-, hunselected⟩ | ⟨-, -, hmoved⟩
      · rw [hself] at hunselected
        exact absurd ⟨hdueID, hdueAt⟩ hunselected
      · exact le_of_eq hmoved.symm
    · exact hearlier advance hold
  · rw [hadvances] at hadvance
    exact hearlier advance hadvance

theorem SystemInv.advancedOnce_advanced (hinv : SystemInv system)
    (hobserved : timestamptz sched.nextRunAt = sched.nextRunAt) (id : String) (fireAt : ℤ) :
    advancedFrom (advanced system sched next jobID dbNow) id fireAt ≤ 1 := by
  have hold := hinv.advancedOnce id fireAt
  rw [advancedFrom] at hold ⊢
  rcases advances_advanced jobID dbNow system next hobserved with
    ⟨⟨due, hdue, hdueID, hdueAt⟩, hadvances⟩ | ⟨hadvances, -⟩
  · rw [hadvances, List.countP_cons]
    split
    · rename_i hsame
      rw [decide_eq_true_eq] at hsame
      have hnone : system.advances.countP
          (fun advance => advance.id = id ∧ advance.observed = fireAt) = 0 := by
        rw [List.countP_eq_zero]
        intro advance hadvance hmatch
        rw [decide_eq_true_eq] at hmatch
        obtain ⟨hincreasing, hbounded⟩ := hinv.recorded advance hadvance
        have hle := hbounded due hdue (hdueID.trans (hsame.1.trans hmatch.1.symm))
        have hobservedAgain : advance.observed = due.nextRunAt :=
          hmatch.2.trans (hsame.2.symm.trans hdueAt.symm)
        omega
      exact le_of_eq (Nat.add_eq_right.2 hnone)
    · exact hold
  · rw [hadvances]
    exact hold

theorem SystemInv.created_advanced (hinv : SystemInv system)
    (hobserved : timestamptz sched.nextRunAt = sched.nextRunAt)
    (hlater : sched.nextRunAt < next) (haligned : next % minute = 0) {row : ScheduleRow}
    (hrow : row ∈ (advanced system sched next jobID dbNow).schedules.rows) (fireAt : ℤ) :
    createdFor (advanced system sched next jobID dbNow) row fireAt ≤ 1 ∧
      (createdFor (advanced system sched next jobID dbNow) row fireAt ≠ 0 →
        unix fireAt ≤ unix row.nextRunAt ∧
          (Active (advanced system sched next jobID dbNow) row fireAt →
            ∃ job ∈ system.world.jobs.rows, JobFor row.tenantID row.id fireAt job)) := by
  obtain ⟨old, hold, hid, htenant, hcases⟩ := mem_advanced jobID dbNow hobserved haligned hrow
  have hcount : createdFor (advanced system sched next jobID dbNow) row fireAt =
      createdFor system old fireAt := by
    rw [createdFor, createdFor, hid, htenant]
    rfl
  rw [hcount]
  refine ⟨hinv.createdOnce old hold fireAt, ?_⟩
  intro hcreated
  obtain ⟨hle, hexists⟩ := hinv.created old hold fireAt hcreated
  rw [hid, htenant]
  rcases hcases with ⟨hsame, -⟩ | ⟨-, hdue, hmoved⟩
  · rw [hsame]
    refine ⟨hle, ?_⟩
    rintro (hunix | ⟨replica, hreplica, held, hheld, hheldID, hunix⟩)
    · rw [hsame] at hunix
      exact hexists (.inl hunix)
    · exact hexists (.inr ⟨replica, hreplica, held, hheld, hheldID.trans hid, hunix⟩)
  · -- A fire with a job is not after the instant the schedule was due for.
    have hbefore : unix fireAt < unix next := by
      rw [hdue] at hle
      exact lt_of_le_of_lt hle (unix_lt hlater haligned)
    rw [hmoved]
    refine ⟨le_of_lt hbefore, ?_⟩
    rintro (hunix | ⟨replica, hreplica, held, hheld, hheldID, hunix⟩)
    · rw [hmoved] at hunix
      exact absurd hunix (ne_of_lt hbefore)
    · exact hexists (.inr ⟨replica, hreplica, held, hheld, hheldID.trans hid, hunix⟩)

theorem SystemInv.advance (hinv : SystemInv system) {replica : Replica}
    (hreplica : replica ∈ system.replicas) (hsched : sched ∈ replica.due)
    (hlater : sched.nextRunAt < next) (haligned : next % minute = 0) :
    SystemInv (advanced system sched next jobID dbNow) := by
  obtain ⟨hobserved, -⟩ := hinv.held replica hreplica sched hsched
  refine ⟨?_, ?_, hinv.stages, hinv.recorded_advanced jobID dbNow hobserved hlater haligned,
    hinv.advancedOnce_advanced jobID dbNow hobserved, ?_, ?_⟩
  · intro row hrow
    obtain ⟨old, hold, -, -, hcases⟩ := mem_advanced jobID dbNow hobserved haligned hrow
    rcases hcases with ⟨hsame, -⟩ | ⟨-, -, hmoved⟩
    · rw [hsame]
      exact hinv.stored old hold
    · rw [hmoved]
      exact timestamptz_of_minute haligned
  · intro other hother held hheld
    obtain ⟨hstored, old, hold, hid, htenant, hle⟩ := hinv.held other hother held hheld
    obtain ⟨row, hrow, hrowID, hrowTenant, hmono⟩ :=
      exists_mem_advanced jobID dbNow hobserved hlater haligned hold
    exact ⟨hstored, row, hrow, hrowID.trans hid, hrowTenant.trans htenant, le_trans hle hmono⟩
  · intro row hrow fireAt
    exact (hinv.created_advanced jobID dbNow hobserved hlater haligned hrow fireAt).1
  · intro row hrow fireAt
    exact (hinv.created_advanced jobID dbNow hobserved hlater haligned hrow fireAt).2

end Advancing

/-! ## One step -/

theorem stageOk_of_ready {jobs : JobTable} {replica : Replica} (hready : replica.stage = .ready) :
    StageOk jobs replica := by
  constructor
  · intro sched next call _ hstage
    rw [hready] at hstage
    cases hstage
  · intro sched next jobID _ hstage
    rw [hready] at hstage
    cases hstage

section Step

variable {system : System} {env : Env} {call : Call}

theorem tenantID_ne_empty_of_eq {job : Job} {tenant : String}
    (hcall : enqueues call = some job) (htenant : job.tenantID = fireTenant tenant) :
    ∀ other, enqueues call = some other → other.tenantID ≠ "" := by
  intro other hother
  rw [hcall] at hother
  cases hother
  rw [htenant]
  exact fireTenant_ne_empty tenant

/-- A statement of the `Enqueue` of a fire. -/
theorem SystemInv.keeps_enqueue (hinv : SystemInv system) {replica : Replica}
    (hreplica : replica ∈ system.replicas) {sched : Schedule}
    (hhead : replica.due.head? = some sched) {next : ℤ}
    (hstage : replica.stage = .enqueueing next call) :
    Keeps system (call.effect env system.world.jobs).table
      (call.effect env system.world.jobs).events := by
  obtain ⟨-, job, hcall, htenant, hkey⟩ :=
    (hinv.stages replica hreplica).enqueueing sched next call hhead hstage
  have hsched : sched ∈ replica.due := List.mem_of_head? hhead
  have hdoes := effect_does env system.world.jobs call
  constructor
  · intro spared hspared _
    obtain ⟨later, hlater, -, hsame⟩ := hdoes.persists hspared (by
      rintro ids rfl
      cases hcall)
    exact ⟨later, hlater, hsame⟩
  · intro row hrow fireAt
    rcases countP_insertedFor_events hdoes (fireKey_ne_empty row.id fireAt) with
      hnone | ⟨hone, hfree⟩
    · exact .inl hnone
    · right
      obtain ⟨id, hreturned⟩ := returned_of_countP (by rw [hone]; exact Nat.one_ne_zero)
      obtain ⟨enqueued, henqueued, htenant', hkey'⟩ := enqueues_of_returned hdoes hreturned
      rw [hcall] at henqueued
      cases henqueued
      -- The key says that the schedule and the second are those of the row held.
      obtain ⟨hid, hunix⟩ := fireKey_injective (hkey.symm.trans hkey')
      obtain ⟨inserted, hinserted, hhas, -⟩ := hasKey_of_returned hdoes
        (tenantID_ne_empty_of_eq hcall htenant) (fireKey_ne_empty row.id fireAt) hreturned
      exact ⟨hone, hfree, ⟨inserted, hinserted, hhas⟩, replica, hreplica, sched, hsched, hid,
        hunix.symm⟩

/-- A statement of any other caller. -/
theorem keeps_otherCallers {world : World}
    (hmay : OtherCallers HeldOrAwaited system world env call) :
    Keeps system (call.effect env system.world.jobs).table
      (call.effect env system.world.jobs).events := by
  have hdoes := effect_does env system.world.jobs call
  constructor
  · intro job hjob hspared
    obtain ⟨later, hlater, -, hsame⟩ := hdoes.persists hjob
      (fun ids hcall => hmay.2 ids hcall job hjob hspared)
    exact ⟨later, hlater, hsame⟩
  · intro row hrow fireAt
    left
    by_contra hcount
    obtain ⟨id, hreturned⟩ := returned_of_countP hcount
    obtain ⟨job, hjob, -, hkey⟩ := enqueues_of_returned hdoes hreturned
    apply hmay.1 job hjob
    rw [hkey]
    exact prefix_fireKey row.id fireAt

section Work

variable {replica : Replica} {sched : Schedule}

/-- The replica goes to another stage with the rows it holds. -/
theorem SystemInv.goto (hinv : SystemInv system) (index : ℕ)
    (hholder : ∃ holder ∈ system.replicas, holder.due = replica.due) {stage : Stage}
    (hstage : StageOk system.world.jobs { replica with stage }) :
    SystemInv (system.put index { replica with stage }) := by
  obtain ⟨holder, hholder, hdue⟩ := hholder
  apply hinv.put index _ hstage
  intro other hother
  left
  refine ⟨holder, hholder, ?_⟩
  rw [hdue]
  exact hother

theorem SystemInv.done (hinv : SystemInv system) (index : ℕ)
    (hholder : ∃ holder ∈ system.replicas, holder.due = replica.due) :
    SystemInv (system.put index replica.done) := by
  obtain ⟨holder, hholder, hdue⟩ := hholder
  apply hinv.put index _ (stageOk_of_ready rfl)
  intro other hother
  left
  refine ⟨holder, hholder, ?_⟩
  rw [hdue]
  exact List.mem_of_mem_tail hother

theorem SystemInv.work_ready (hinv : SystemInv system) (index : ℕ)
    (hreplica : replica ∈ system.replicas) (hhead : replica.due.head? = some sched)
    (hstage : replica.stage = .ready) : SystemInv (system.work index replica sched env) := by
  simp only [System.work, hstage]
  rcases hnext : nextFire sched replica.now with why | next
  · exact hinv.done index ⟨replica, hreplica, rfl⟩
  · apply hinv.goto index ⟨replica, hreplica, rfl⟩
    constructor
    · intro first next' call hfirst henqueueing
      cases hhead.symm.trans hfirst
      cases henqueueing
      exact ⟨nextFire_later hnext, withTenant (fireJob sched), rfl, tenantID_fireJob sched,
        idempotencyKey_fireJob sched⟩
    · intro first next' jobID _ hadvancing
      cases hadvancing

/-- The job of a fire is in the table when its `Enqueue` has answered. -/
theorem exists_jobFor_of_reply {job : Job} {jobID : String}
    (hcall : enqueues call = some job) (htenant : job.tenantID = fireTenant sched.tenantID)
    (hkey : job.idempotencyKey = fireKey sched.id sched.nextRunAt)
    (hreply : (call.effect env system.world.jobs).reply = some (.id jobID)) :
    ∃ row ∈ (call.effect env system.world.jobs).table.rows,
      JobFor sched.tenantID sched.id sched.nextRunAt row := by
  have hreturned := returned_of_reply hcall hreply
  rw [htenant, hkey] at hreturned
  obtain ⟨row, hrow, hhas, -⟩ := hasKey_of_returned (effect_does env system.world.jobs call)
    (tenantID_ne_empty_of_eq hcall htenant) (fireKey_ne_empty sched.id sched.nextRunAt) hreturned
  exact ⟨row, hrow, hhas⟩

theorem SystemInv.work_enqueueing (hinv : SystemInv system) (index : ℕ)
    (hreplica : replica ∈ system.replicas) (hhead : replica.due.head? = some sched) {next : ℤ}
    (hstage : replica.stage = .enqueueing next call) :
    SystemInv (system.work index replica sched env) := by
  obtain ⟨hlater, job, hcall, htenant, hkey⟩ :=
    (hinv.stages replica hreplica).enqueueing sched next call hhead hstage
  have habsorbed : SystemInv { system with
      world := system.world.absorb (call.effect env system.world.jobs) } :=
    hinv.absorb rfl (hinv.keeps_enqueue hreplica hhead hstage)
  simp only [System.work, hstage]
  split
  · rename_i later hnext
    apply habsorbed.goto index ⟨replica, hreplica, rfl⟩
    constructor
    · intro first next' call' hfirst henqueueing
      cases hhead.symm.trans hfirst
      cases henqueueing
      obtain ⟨followed, hfollowed, hfollowedTenant, hfollowedKey⟩ := enqueues_next hcall hnext
      exact ⟨hlater, followed, hfollowed, hfollowedTenant.trans htenant,
        hfollowedKey.trans hkey⟩
    · intro first next' jobID _ hadvancing
      cases hadvancing
  · rename_i jobID _ hreply
    apply habsorbed.goto index ⟨replica, hreplica, rfl⟩
    constructor
    · intro first next' call' _ henqueueing
      cases henqueueing
    · intro first next' jobID' hfirst hadvancing
      cases hhead.symm.trans hfirst
      cases hadvancing
      exact ⟨hlater, exists_jobFor_of_reply hcall htenant hkey hreply⟩
  · exact habsorbed.done index ⟨replica, hreplica, rfl⟩

theorem SystemInv.work_advancing (hinv : SystemInv system) (index : ℕ)
    (hreplica : replica ∈ system.replicas) (hhead : replica.due.head? = some sched)
    {next : ℤ} {jobID : String} (hstage : replica.stage = .advancing next jobID) :
    SystemInv (system.work index replica sched env) := by
  obtain ⟨⟨hlater, haligned⟩, -⟩ :=
    (hinv.stages replica hreplica).advancing sched next jobID hhead hstage
  have hadvanced : SystemInv (advanced system sched next jobID env.dbNow) :=
    hinv.advance jobID env.dbNow hreplica (List.mem_of_head? hhead) hlater haligned
  simp only [System.work, hstage]
  exact hadvanced.done index ⟨replica, hreplica, rfl⟩

end Work

theorem SystemInv.step (hinv : SystemInv system) {label : Replicas.Label}
    (hallowed : (Replicas.machine HeldOrAwaited).Allowed system label) :
    SystemInv (system.step label) := by
  cases label with
  | read index now limit =>
      apply hinv.put index _ (stageOk_of_ready rfl)
      intro sched hsched
      obtain ⟨row, hrow, -, rfl⟩ := mem_dueSchedules hsched
      exact .inr ⟨row, hrow, rfl⟩
  | work index env =>
      rw [System.step]
      rcases hget : system.replicas[index]? with _ | replica
      · exact hinv
      · dsimp only
        cases hdue : replica.due with
        | nil => exact hinv
        | cons sched rest =>
            have hreplica := List.mem_of_getElem? hget
            have hhead : replica.due.head? = some sched := by
              rw [hdue]
              rfl
            cases hstage : replica.stage with
            | ready => exact hinv.work_ready index hreplica hhead hstage
            | enqueueing next call => exact hinv.work_enqueueing index hreplica hhead hstage
            | advancing next jobID => exact hinv.work_advancing index hreplica hhead hstage
  | giveUp index =>
      rw [System.step]
      rcases hget : system.replicas[index]? with _ | replica
      · exact hinv
      · exact hinv.done index ⟨replica, List.mem_of_getElem? hget, rfl⟩
  | crash index =>
      apply hinv.put index _ (stageOk_of_ready rfl)
      intro sched hsched
      cases hsched
  | jobs label =>
      have hjobs : (JobMachine.machine AnyTable (OtherCallers HeldOrAwaited system)).Allowed
          system.world label := hallowed
      rw [System.step]
      rcases step_cases hjobs with ⟨env, call, -, hmay, hstep⟩ |
        ⟨env, call, calls, -, hmay, hstep⟩ | ⟨calls, -, hstep⟩
      · rw [hstep]
        exact hinv.absorb rfl (keeps_otherCallers hmay)
      · rw [hstep]
        exact hinv.absorb rfl (keeps_otherCallers hmay)
      · rw [hstep]
        have hkeeps : Keeps system system.world.jobs [] :=
          ⟨fun job hjob _ => ⟨job, hjob, rfl, rfl⟩, fun _ _ _ => .inl rfl⟩
        exact hinv.absorb rfl hkeeps

end Step

theorem systemInv {system : System}
    (hreach : (Replicas.machine HeldOrAwaited).Reachable system) : SystemInv system := by
  refine hreach.invariant SystemInv ?_ ?_
  · rintro initial ⟨hstored, hidle, -, hhistory, hadvances⟩
    exact .init hstored hidle hhistory hadvances
  · intro before label _ hallowed hinv
    exact hinv.step hallowed

/-- Only a replica that is about to advance writes the schedules. -/
theorem step_schedules (system : System) (label : Replicas.Label) :
    (system.step label).schedules = system.schedules ∨
      ∃ replica ∈ system.replicas, ∃ sched next jobID dbNow,
        replica.due.head? = some sched ∧ replica.stage = .advancing next jobID ∧
        (system.step label).schedules = (advanced system sched next jobID dbNow).schedules ∧
        (system.step label).advances = (advanced system sched next jobID dbNow).advances := by
  cases label with
  | read | crash | jobs => exact .inl rfl
  | giveUp index =>
      left
      rw [System.step]
      split <;> rfl
  | work index env =>
      rw [System.step]
      rcases hget : system.replicas[index]? with _ | replica
      · exact .inl rfl
      · dsimp only
        cases hdue : replica.due with
        | nil => exact .inl rfl
        | cons sched rest =>
            dsimp only
            cases hstage : replica.stage with
            | ready =>
                left
                simp only [System.work, hstage]
                split <;> rfl
            | enqueueing next call =>
                left
                simp only [System.work, hstage]
                split <;> rfl
            | advancing next jobID =>
                right
                refine ⟨replica, List.mem_of_getElem? hget, sched, next, jobID, env.dbNow, ?_,
                  hstage, ?_, ?_⟩
                · rw [hdue]
                  rfl
                · simp only [System.work, hstage]
                  rfl
                · simp only [System.work, hstage]
                  rfl

/-- On any number of replicas, whatever the interleaving and the crashes, a fire of a
schedule has one job and one successful advance at most, and the schedule moves on
only with the job of the fire in the table. -/
theorem fires_once {system : System}
    (hreach : (Replicas.machine HeldOrAwaited).Reachable system) {row : ScheduleRow}
    (hrow : row ∈ system.schedules.rows) : FiresOnce HeldOrAwaited system row := by
  have hinv := systemInv hreach
  refine ⟨hinv.createdOnce row hrow, hinv.advancedOnce row.id,
    fun advance hadvance => (hinv.recorded advance hadvance).1, ?_⟩
  intro label hallowed later hlater hid hmoved
  rcases step_schedules system label with hsame |
    ⟨replica, hreplica, sched, next, jobID, dbNow, hhead, hstage, hschedules, hadvances⟩
  · rw [hsame] at hlater
    exact absurd (congrArg ScheduleRow.nextRunAt (system.schedules.key_unique hlater hrow hid))
      hmoved
  · obtain ⟨⟨hnext, haligned⟩, job, hjob, hfor⟩ :=
      (hinv.stages replica hreplica).advancing sched next jobID hhead hstage
    obtain ⟨hobserved, read, hread, hreadID, htenant, -⟩ :=
      hinv.held replica hreplica sched (List.mem_of_head? hhead)
    rw [hschedules] at hlater
    obtain ⟨old, hold, holdID, -, hcases⟩ := mem_advanced jobID dbNow hobserved haligned hlater
    have hself : old = row := system.schedules.key_unique hold hrow (holdID.symm.trans hid)
    rw [hself] at hcases
    rcases hcases with ⟨hunmoved, -⟩ | ⟨hschedID, hdue, hnow⟩
    · exact absurd hunmoved hmoved
    · have hreadSelf : read = row :=
        system.schedules.key_unique hread hrow (hreadID.trans hschedID.symm)
      rw [hreadSelf] at htenant
      refine ⟨?_, ?_, job, hjob, ?_⟩
      · rw [hdue, hnow]
        exact hnext
      · rw [hadvances, hnow, hschedID, hdue]
        rcases advances_advanced jobID dbNow system next hobserved with
          ⟨-, hrecorded⟩ | ⟨-, hnone⟩
        · exact hrecorded
        · exact absurd ⟨row, hrow, hschedID, hdue⟩ hnone
      · rw [htenant, hschedID, hdue]
        exact hfor

/-! ## A crash between the two writes -/

/-- One schedule for every minute, due at minute one, and two idle replicas. -/
def minutelySystem : System where
  world := emptyWorld
  schedules := soleSchedule (plainSchedule "* * * * *" minute)
  replicas := [⟨0, [], .ready⟩, ⟨0, [], .ready⟩]
  advances := []

/-- A replica reads the schedule, enqueues its job, and advances it. -/
def firedRun : List Replicas.Label :=
  [.read 0 minute 5, .work 0 (plainEnv 1 minute ""), .work 0 (plainEnv 1 minute ""),
    .work 0 (plainEnv 1 minute "job-1"), .work 0 (plainEnv 1 minute "")]

/-- A replica enqueues the job and crashes before it advances.  The job is
completed and deleted while no replica holds the schedule, and then another replica
reads the schedule and enqueues a second job. -/
def crashedRun : List Replicas.Label :=
  [.read 0 minute 5, .work 0 (plainEnv 1 minute ""), .work 0 (plainEnv 1 minute ""),
    .work 0 (plainEnv 1 minute "job-1"), .crash 0,
    .jobs (.issue (plainEnv 1 minute "") (.claimNextJob minute ⟨anyTenant, [], []⟩)),
    .jobs (.issue (plainEnv 1 minute "")
      (.completeClaimedJob "job-1" (newLeaseToken fun _ => 1) none)),
    .jobs (.issue (plainEnv 1 (2 * minute) "") (.deleteFinished .completed (2 * minute) 10)),
    .jobs (.resume (plainEnv 1 (2 * minute) "") 0),
    .read 1 (2 * minute) 5, .work 1 (plainEnv 2 (2 * minute) ""),
    .work 1 (plainEnv 2 (2 * minute) ""), .work 1 (plainEnv 2 (2 * minute) "job-2")]

theorem init_minutelySystem (Spared : System → Row → Prop) :
    (Replicas.machine Spared).Init minutelySystem := by
  refine ⟨?_, ?_, rfl, rfl, rfl⟩
  · decide
  · intro replica hreplica
    rcases List.mem_pair.1 hreplica with rfl | rfl
    · rfl
    · rfl

section Allowed

variable {Spared : System → Row → Prop} {system : System}

theorem allowed_read {index : ℕ} {now limit : ℤ}
    (hidle : (system.replicas[index]?).all (fun replica => replica.due.isEmpty) = true) :
    (Replicas.machine Spared).Allowed system (.read index now limit) := by
  intro replica hreplica
  rw [Option.mem_def.1 hreplica, Option.all_some] at hidle
  exact List.isEmpty_iff.1 hidle

theorem allowed_issue {env : Env} {call : Call} (hinitial : call.continues = false)
    (hkafka : ∀ message lease, call ≠ .kafkaClaim message lease)
    (henqueues : enqueues call = none) :
    (Replicas.machine Spared).Allowed system (.jobs (.issue env call)) := by
  refine ⟨⟨hinitial, ?_⟩, ?_, ?_⟩
  · intro message lease hcall
    exact absurd hcall (hkafka message lease)
  · intro job hjob
    rw [henqueues] at hjob
    cases hjob
  · rintro ids rfl
    cases hinitial

/-- Nothing is held by replicas that are idle. -/
theorem allowed_resume {env : Env} {index : ℕ}
    (hidle : system.replicas.all (fun replica => replica.due.isEmpty) = true)
    (hcalls : (system.world.calls[index]?).all (fun call => (enqueues call).isNone) = true) :
    (Replicas.machine Held).Allowed system (.jobs (.resume env index)) := by
  intro call hcall
  rw [Option.mem_def.1 hcall, Option.all_some, Option.isNone_iff_eq_none] at hcalls
  constructor
  · intro job hjob
    rw [hcalls] at hjob
    cases hjob
  · rintro ids - job - ⟨replica, hreplica, sched, hsched, -⟩
    have hempty := List.isEmpty_iff.1 (List.all_eq_true.1 hidle replica hreplica)
    rw [hempty] at hsched
    cases hsched

end Allowed

theorem allowedRun_firedRun :
    (Replicas.machine HeldOrAwaited).AllowedRun minutelySystem firedRun :=
  ⟨allowed_read (by decide +kernel), trivial, trivial, trivial, trivial, trivial⟩

theorem allowedRun_crashedRun :
    (Replicas.machine Held).AllowedRun minutelySystem crashedRun := by
  refine ⟨allowed_read ?_, trivial, trivial, trivial, trivial, allowed_issue rfl ?_ rfl,
    allowed_issue rfl ?_ rfl, allowed_issue rfl ?_ rfl, allowed_resume ?_ ?_, allowed_read ?_,
    trivial, trivial, trivial, trivial⟩
  · decide +kernel
  · rintro message lease ⟨⟩
  · rintro message lease ⟨⟩
  · rintro message lease ⟨⟩
  · decide +kernel
  · decide +kernel
  · decide +kernel

theorem fires_once_firedRun :
    ((Replicas.machine HeldOrAwaited).run minutelySystem firedRun).advances =
        [⟨"schedule-1", minute, 2 * minute⟩] ∧
      ∀ row ∈ ((Replicas.machine HeldOrAwaited).run minutelySystem firedRun).schedules.rows,
        FiresOnce HeldOrAwaited
          ((Replicas.machine HeldOrAwaited).run minutelySystem firedRun) row := by
  have hstart : (Replicas.machine HeldOrAwaited).Reachable minutelySystem :=
    .start (init_minutelySystem HeldOrAwaited)
  constructor
  · decide +kernel
  · intro row hrow
    exact fires_once (hstart.run allowedRun_firedRun) hrow

/-- When retention spares only the jobs of fires that a replica holds, a second job
can be created for a fire. -/
theorem not_fires_once_of_held :
    ¬ ∀ system, (Replicas.machine Held).Reachable system →
      ∀ row ∈ system.schedules.rows, FiresOnce Held system row := by
  intro honce
  have hstart : (Replicas.machine Held).Reachable minutelySystem :=
    .start (init_minutelySystem Held)
  have hrow : plainSchedule "* * * * *" minute ∈
      ((Replicas.machine Held).run minutelySystem crashedRun).schedules.rows := by
    decide +kernel
  have hfires := honce _ (hstart.run allowedRun_crashedRun) _ hrow
  have htwo : createdFor ((Replicas.machine Held).run minutelySystem crashedRun)
      (plainSchedule "* * * * *" minute) minute = 2 := by
    decide +kernel
  have hone := hfires.created_once minute
  rw [htwo] at hone
  exact absurd hone (by decide)

end Conduit.OneJobPerFire
