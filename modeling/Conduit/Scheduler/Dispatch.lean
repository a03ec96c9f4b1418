import Conduit.Core.Transition
import Conduit.Scheduler.Fire

/-!
# A tick of the scheduler

`dispatch` reads at most `FireBudget` due schedules, oldest first, and fires them one
after the other.  A schedule that cannot be fired is read like any other, and since
`fire` neither advances nor disables it, it is read again on every later tick.  Enough
of them at the head of the order use up the budget, and what is behind them never
fires.
-/

namespace Conduit.Scheduler

open Models Relational JobService ScheduleStore Cron Transition

/-- The clock of a tick, and what its fires meet one by one. -/
structure Tick where
  now : ℤ
  envs : ℕ → Env

def fires (tick : Tick) :
    ℕ → List Schedule → Database → List (Schedule × Outcome) × Database
  | _, [], database => ([], database)
  | index, sched :: rest, database =>
      let fired := fire (tick.envs index) database sched tick.now
      let others := fires tick (index + 1) rest fired.2
      ((sched, fired.1) :: others.1, others.2)

/-- The schedules a tick read with what became of each, and the database after it. -/
def dispatch (budget : ℤ) (tick : Tick) (database : Database) :
    List (Schedule × Outcome) × Database :=
  fires tick 0 (dueSchedules database.schedules tick.now budget) database

/-- Neither `Enqueue` nor `AdvanceSchedule` failed. -/
def Outcome.succeeds : Outcome → Bool
  | .notFired _ | .fired .. => true
  | .enqueueFailed _ | .advanceLost => false

def Outcome.isFired : Outcome → Bool
  | .fired .. => true
  | _ => false

def fireable (now : ℤ) (sched : Schedule) : Bool :=
  match nextFire sched now with
  | .ok _ => true
  | .error _ => false

def Succeeds (results : List (Schedule × Outcome)) : Prop :=
  ∀ result ∈ results, result.2.succeeds = true

/-! ## What a tick fires -/

section Fires

variable {tick : Tick} {index : ℕ} {scheds : List Schedule} {database : Database}

theorem map_fst_fires : (fires tick index scheds database).1.map Prod.fst = scheds := by
  induction scheds generalizing index database with
  | nil => rfl
  | cons sched rest ih => exact congrArg (sched :: ·) ih

theorem outcome_of_mem_fires {result : Schedule × Outcome}
    (hresult : result ∈ (fires tick index scheds database).1) :
    ∃ env before, result.2 = (fire env before result.1 tick.now).1 := by
  induction scheds generalizing index database with
  | nil => cases hresult
  | cons sched rest ih =>
      rcases List.mem_cons.mp hresult with rfl | htail
      · exact ⟨_, _, rfl⟩
      · exact ih htail

theorem isFired_fire {env : Env} {sched : Schedule} {now : ℤ}
    (hsucceeds : (fire env database sched now).1.succeeds = true) :
    (fire env database sched now).1.isFired = fireable now sched := by
  rw [fireable]
  cases hnext : nextFire sched now with
  | error why =>
      rw [fire_eq_notFired_iff.mpr hnext]
      rfl
  | ok next =>
      cases houtcome : (fire env database sched now).1 with
      | fired jobID next => rfl
      | notFired why =>
          rw [fire_eq_notFired_iff, hnext] at houtcome
          cases houtcome
      | enqueueFailed err =>
          rw [houtcome] at hsucceeds
          cases hsucceeds
      | advanceLost =>
          rw [houtcome] at hsucceeds
          cases hsucceeds

theorem isFired_of_mem_fires {result : Schedule × Outcome}
    (hsucceeds : Succeeds (fires tick index scheds database).1)
    (hresult : result ∈ (fires tick index scheds database).1) :
    result.2.isFired = fireable tick.now result.1 := by
  obtain ⟨env, before, houtcome⟩ := outcome_of_mem_fires hresult
  have hsucceeds := hsucceeds result hresult
  rw [houtcome] at hsucceeds ⊢
  exact isFired_fire hsucceeds

/-- A tick fires the schedules it read that can be fired. -/
theorem countP_isFired (hsucceeds : Succeeds (fires tick index scheds database).1) :
    (fires tick index scheds database).1.countP (fun result => result.2.isFired) =
      scheds.countP (fireable tick.now) := by
  calc (fires tick index scheds database).1.countP (fun result => result.2.isFired)
      = (fires tick index scheds database).1.countP (fireable tick.now ∘ Prod.fst) := by
        apply List.countP_congr
        intro result hresult
        rw [isFired_of_mem_fires hsucceeds hresult]
        rfl
    _ = ((fires tick index scheds database).1.map Prod.fst).countP (fireable tick.now) :=
        List.countP_map.symm
    _ = scheds.countP (fireable tick.now) := by rw [map_fst_fires]

/-! ## What a tick leaves of the table -/

/-- A fire advances the row of its schedule past the clock, or nothing. -/
theorem mem_fire {env : Env} {sched : Schedule} {now : ℤ} {row : ScheduleRow}
    (hrow : row ∈ (fire env database sched now).2.schedules.rows) :
    row ∈ database.schedules.rows ∨ (row.id = sched.id ∧ now < row.nextRunAt) := by
  rcases fire_schedules env database sched now with hsame | ⟨next, jobID, hnext, hadvance⟩
  · rw [hsame] at hrow
    exact .inl hrow
  · rw [hadvance] at hrow
    obtain ⟨old, hold, hset⟩ := Table.mem_exec.mp hrow
    split at hset
    case isTrue hselects =>
      rw [← hset]
      exact .inr ⟨hselects.1, lt_nextFire hnext⟩
    case isFalse =>
      rw [← hset]
      exact .inl hold

theorem mem_fire_of_ne {env : Env} {sched : Schedule} {now : ℤ} {row : ScheduleRow}
    (hrow : row ∈ database.schedules.rows) (hid : row.id ≠ sched.id) :
    row ∈ (fire env database sched now).2.schedules.rows := by
  rcases fire_schedules env database sched now with hsame | ⟨next, jobID, hnext, hadvance⟩
  · rw [hsame]
    exact hrow
  · rw [hadvance]
    exact Table.mem_exec.mpr ⟨row, hrow, if_neg fun hselects => hid hselects.1⟩

theorem lt_of_isFired_fire {env : Env} {sched : Schedule} {now : ℤ} {row : ScheduleRow}
    (hfired : (fire env database sched now).1.isFired = true)
    (hrow : row ∈ (fire env database sched now).2.schedules.rows) (hid : row.id = sched.id) :
    now < row.nextRunAt := by
  cases houtcome : (fire env database sched now).1 with
  | notFired why =>
      rw [houtcome] at hfired
      cases hfired
  | enqueueFailed err =>
      rw [houtcome] at hfired
      cases hfired
  | advanceLost =>
      rw [houtcome] at hfired
      cases hfired
  | fired jobID next =>
      obtain ⟨hnext, -, hadvance⟩ := fire_eq_fired houtcome
      have hschedules : (advanceSchedule database.schedules env.dbNow sched.id
          sched.nextRunAt next jobID).2 = (fire env database sched now).2.schedules :=
        congrArg Prod.snd hadvance
      obtain ⟨read, hread, hreadID, hreadNext⟩ :=
        (advanceSchedule_fst database.schedules env.dbNow sched.id sched.nextRunAt next
          jobID).mp (congrArg Prod.fst hadvance)
      rw [← hschedules] at hrow
      obtain ⟨old, hold, hset⟩ := Table.mem_exec.mp hrow
      split at hset
      case isTrue =>
        rw [← hset]
        exact lt_nextFire hnext
      case isFalse hselects =>
        rw [← hset] at hid
        have hself := database.schedules.key_unique hold hread (hid.trans hreadID.symm)
        rw [hself] at hselects
        exact absurd ⟨hreadID, hreadNext⟩ hselects

theorem mem_fires {row : ScheduleRow}
    (hrow : row ∈ (fires tick index scheds database).2.schedules.rows) :
    row ∈ database.schedules.rows ∨ tick.now < row.nextRunAt := by
  induction scheds generalizing index database with
  | nil => exact .inl hrow
  | cons sched rest ih =>
      rcases ih hrow with hmem | hlater
      · exact (mem_fire hmem).imp_right And.right
      · exact .inr hlater

theorem mem_fires_of_forall_ne {row : ScheduleRow} (hrow : row ∈ database.schedules.rows)
    (hid : ∀ sched ∈ scheds, row.id ≠ sched.id) :
    row ∈ (fires tick index scheds database).2.schedules.rows := by
  induction scheds generalizing index database with
  | nil => exact hrow
  | cons sched rest ih =>
      obtain ⟨hhead, htail⟩ := List.forall_mem_cons.mp hid
      exact ih (mem_fire_of_ne hrow hhead) htail

/-- A schedule that was fired is not due again at the same time. -/
theorem lt_of_isFired_fires {result : Schedule × Outcome} {row : ScheduleRow}
    (hresult : result ∈ (fires tick index scheds database).1)
    (hfired : result.2.isFired = true)
    (hrow : row ∈ (fires tick index scheds database).2.schedules.rows)
    (hid : row.id = result.1.id) : tick.now < row.nextRunAt := by
  induction scheds generalizing index database with
  | nil => cases hresult
  | cons sched rest ih =>
      change row ∈ (fires tick (index + 1) rest
        (fire (tick.envs index) database sched tick.now).2).2.schedules.rows at hrow
      rcases List.mem_cons.mp hresult with rfl | htail
      · rcases mem_fires hrow with hmem | hlater
        · exact lt_of_isFired_fire hfired hmem hid
        · exact hlater
      · exact ih htail hrow

end Fires

/-! ## The head of the order -/

/-- The rows a tick reads. -/
def head (budget now : ℤ) (table : ScheduleTable) : List ScheduleRow :=
  selectOrdered runsBefore (Due now) budget.toNat table.rows

/-- The due rows that can be fired. -/
def fireableDue (now : ℤ) (table : ScheduleTable) : List ScheduleRow :=
  (table.rows.filter (Due now)).filter fun row => fireable now (scanSchedule row)

/-- Every row read can be fired, or every row that can be fired is read. -/
def HeadClear (budget now : ℤ) (table : ScheduleTable) : Prop :=
  (∀ row ∈ head budget now table, fireable now (scanSchedule row) = true) ∨
    ∀ row ∈ fireableDue now table, row ∈ head budget now table

theorem dueSchedules_eq {budget now : ℤ} {table : ScheduleTable} (hbudget : 1 ≤ budget) :
    dueSchedules table now budget = (head budget now table).map scanSchedule := by
  rw [dueSchedules, if_neg (by omega), head]

theorem mem_fireableDue {now : ℤ} {table : ScheduleTable} {row : ScheduleRow} :
    row ∈ fireableDue now table ↔
      (row ∈ table.rows ∧ Due now row) ∧ fireable now (scanSchedule row) = true := by
  rw [fireableDue, List.mem_filter, List.mem_filter, decide_eq_true_iff]

/-- The due rows in the order of the query are those read and those left out. -/
theorem forall_drop_iff {budget now : ℤ} {table : ScheduleTable} :
    (∀ row ∈ ((table.rows.filter (Due now)).insertionSort runsBefore).drop budget.toNat,
        fireable now (scanSchedule row) ≠ true) ↔
      ∀ row ∈ fireableDue now table, row ∈ head budget now table := by
  have hnodup : ((table.rows.filter (Due now)).insertionSort runsBefore).Nodup :=
    (List.perm_insertionSort runsBefore _).nodup_iff.mpr (table.nodup.filter _)
  have hmem : ∀ row, row ∈ (table.rows.filter (Due now)).insertionSort runsBefore ↔
      row ∈ table.rows ∧ Due now row := by
    intro row
    rw [List.mem_insertionSort, List.mem_filter, decide_eq_true_iff]
  rw [← List.take_append_drop budget.toNat
    ((table.rows.filter (Due now)).insertionSort runsBefore)] at hnodup hmem
  have hdisjoint := (List.nodup_append.mp hnodup).2.2
  constructor
  · intro hdrop row hrow
    obtain ⟨hdue, hfireable⟩ := mem_fireableDue.mp hrow
    rcases List.mem_append.mp ((hmem row).mpr hdue) with htaken | hdropped
    · exact htaken
    · exact absurd hfireable (hdrop row hdropped)
  · intro hread row hdropped hfireable
    have hdue := (hmem row).mp (List.mem_append_right _ hdropped)
    exact hdisjoint row (hread row (mem_fireableDue.mpr ⟨hdue, hfireable⟩)) row hdropped rfl

theorem countP_fireable_iff {budget now : ℤ} {table : ScheduleTable} (hbudget : 1 ≤ budget) :
    min budget.toNat (fireableDue now table).length ≤
        (dueSchedules table now budget).countP (fireable now) ↔
      HeadClear budget now table := by
  have hperm := List.perm_insertionSort runsBefore (table.rows.filter (Due now))
  rw [dueSchedules_eq hbudget, List.countP_map, fireableDue, ← List.countP_eq_length_filter,
    ← hperm.countP_eq, HeadClear, ← forall_drop_iff]
  exact min_countP_le_countP_take_iff

/-! ## Ticks -/

structure Ticking where
  database : Database
  now : ℤ

/-- The clock does not go back, and no `Enqueue` or `AdvanceSchedule` fails. -/
def ticks (budget : ℤ) : Machine Ticking Tick where
  Init _ := True
  Allowed system tick :=
    system.now ≤ tick.now ∧ Succeeds (dispatch budget tick system.database).1
  step system tick := ⟨(dispatch budget tick system.database).2, tick.now⟩

/-- The condition on a tick. -/
def Clear (budget : ℤ) (system : Ticking) (tick : Tick) : Prop :=
  HeadClear budget tick.now system.database.schedules

/-- The schedules that stand before a row in the order of the query. -/
def ahead (table : ScheduleTable) (row : ScheduleRow) : Finset String :=
  ((table.rows.filter fun other => other.enabled ∧ other.nextRunAt ≤ row.nextRunAt).map
    ScheduleRow.id).toFinset

theorem mem_ahead {table : ScheduleTable} {row : ScheduleRow} {id : String} :
    id ∈ ahead table row ↔ ∃ other ∈ table.rows,
      (other.enabled = true ∧ other.nextRunAt ≤ row.nextRunAt) ∧ other.id = id := by
  simp only [ahead, List.mem_toFinset, List.mem_map, List.mem_filter, decide_eq_true_iff,
    and_assoc]

theorem card_ahead_le {table : ScheduleTable} {row : ScheduleRow} :
    (ahead table row).card ≤ table.rows.length := by
  calc (ahead table row).card
      ≤ ((table.rows.filter fun other =>
          other.enabled ∧ other.nextRunAt ≤ row.nextRunAt).map ScheduleRow.id).length :=
        List.toFinset_card_le _
    _ = (table.rows.filter fun other =>
          other.enabled ∧ other.nextRunAt ≤ row.nextRunAt).length := List.length_map _
    _ ≤ table.rows.length := List.length_filter_le ..

theorem due_mono {now later : ℤ} {row : ScheduleRow} (hle : now ≤ later) (hdue : Due now row) :
    Due later row := by
  refine ⟨hdue.1, le_trans hdue.2 ?_⟩
  simp only [timestamptz]
  omega

/-- The schedule of a row is fired by a tick. -/
def FiredBy (budget : ℤ) (tick : Tick) (database : Database) (row : ScheduleRow) : Prop :=
  ∃ jobID next, (scanSchedule row, Outcome.fired jobID next) ∈ (dispatch budget tick database).1

section Progress

variable {budget : ℤ} {tick : Tick} {database : Database} {row : ScheduleRow}

/-- A row that can be fired and is read is fired. -/
theorem firedBy_of_mem_head {read : ScheduleRow} (hbudget : 1 ≤ budget)
    (hsucceeds : Succeeds (dispatch budget tick database).1)
    (hread : read ∈ head budget tick.now database.schedules)
    (hfireable : fireable tick.now (scanSchedule read) = true) :
    FiredBy budget tick database read := by
  have hsched : scanSchedule read ∈ (dispatch budget tick database).1.map Prod.fst := by
    rw [dispatch, map_fst_fires, dueSchedules_eq hbudget]
    exact List.mem_map_of_mem hread
  obtain ⟨⟨sched, outcome⟩, hresult, rfl⟩ := List.mem_map.mp hsched
  have hfired := isFired_of_mem_fires hsucceeds hresult
  rw [hfireable] at hfired
  cases outcome with
  | fired jobID next => exact ⟨jobID, next, hresult⟩
  | notFired why => cases hfired
  | enqueueFailed err => cases hfired
  | advanceLost => cases hfired

theorem exists_mem_head (hbudget : 1 ≤ budget) {now : ℤ} {table : ScheduleTable}
    (hrow : row ∈ table.rows) (hdue : Due now row) : ∃ first, first ∈ head budget now table := by
  have hmem : row ∈ (table.rows.filter (Due now)).insertionSort runsBefore := by
    rw [List.mem_insertionSort, List.mem_filter, decide_eq_true_iff]
    exact ⟨hrow, hdue⟩
  have hlength : 0 < (head budget now table).length := by
    rw [head, selectOrdered, List.length_take]
    have hpositive := List.length_pos_of_mem hmem
    omega
  exact List.exists_mem_of_length_pos hlength

/-- Once fired, a schedule is no longer before one that was due then. -/
theorem notMem_ahead_of_firedBy {first : ScheduleRow} (hfired : FiredBy budget tick database first)
    (hdue : Due tick.now row) :
    first.id ∉ ahead (dispatch budget tick database).2.schedules row := by
  intro hahead
  obtain ⟨other, hother, ⟨-, hbefore⟩, hid⟩ := mem_ahead.mp hahead
  obtain ⟨jobID, next, hresult⟩ := hfired
  have hlater : tick.now < other.nextRunAt := lt_of_isFired_fires hresult rfl hother hid
  have hnow := le_trans hdue.2 (timestamptz_le tick.now)
  omega

/-- No schedule comes in before one that is due. -/
theorem ahead_dispatch_subset (hdue : Due tick.now row) :
    ahead (dispatch budget tick database).2.schedules row ⊆ ahead database.schedules row := by
  intro id hahead
  obtain ⟨other, hother, hbefore, hid⟩ := mem_ahead.mp hahead
  rcases mem_fires hother with hmem | hlater
  · exact mem_ahead.mpr ⟨other, hmem, hbefore, hid⟩
  · have hnow := le_trans hdue.2 (timestamptz_le tick.now)
    omega

/-- A clear tick fires the row or a row before it. -/
theorem firedBy_or_ahead (hbudget : 1 ≤ budget)
    (hsucceeds : Succeeds (dispatch budget tick database).1)
    (hclear : HeadClear budget tick.now database.schedules)
    (hrow : row ∈ database.schedules.rows) (hdue : Due tick.now row)
    (hfireable : fireable tick.now (scanSchedule row) = true) :
    FiredBy budget tick database row ∨
      (row ∈ (dispatch budget tick database).2.schedules.rows ∧
        ahead (dispatch budget tick database).2.schedules row ⊂
          ahead database.schedules row) := by
  by_cases hread : row ∈ head budget tick.now database.schedules
  · exact .inl (firedBy_of_mem_head hbudget hsucceeds hread hfireable)
  · right
    have hall := hclear.resolve_right fun hall =>
      hread (hall row (mem_fireableDue.mpr ⟨⟨hrow, hdue⟩, hfireable⟩))
    obtain ⟨first, hfirst⟩ := exists_mem_head hbudget hrow hdue
    obtain ⟨hmem, hfirstDue⟩ := mem_selectOrdered hfirst
    have hfired := firedBy_of_mem_head hbudget hsucceeds hfirst (hall first hfirst)
    have hbefore : runsBefore first row :=
      before_of_notMem_selectOrdered hrow hdue hread hfirst
    constructor
    · apply mem_fires_of_forall_ne hrow
      intro sched hsched hid
      rw [dueSchedules_eq hbudget] at hsched
      obtain ⟨other, hother, rfl⟩ := List.mem_map.mp hsched
      have hself := database.schedules.key_unique hrow (mem_selectOrdered hother).1 hid
      rw [← hself] at hother
      exact hread hother
    · rw [Finset.ssubset_iff_of_subset (ahead_dispatch_subset hdue)]
      exact ⟨first.id, mem_ahead.mpr ⟨first, hmem, ⟨hfirstDue.1, hbefore⟩, rfl⟩,
        notMem_ahead_of_firedBy hfired hdue⟩

/-- In clear ticks, a row that can be fired is fired after as many as there are rows
before it. -/
theorem exists_firedBy (hbudget : 1 ≤ budget) {system : Ticking} {labels : List Tick}
    (hrow : row ∈ system.database.schedules.rows) (hdue : Due system.now row)
    (hfireable : ∀ tick ∈ labels, fireable tick.now (scanSchedule row) = true)
    (hclear : ((ticks budget).restrict (Clear budget)).AllowedRun system labels)
    (hlength : (ahead system.database.schedules row).card ≤ labels.length) :
    ∃ before tick after, labels = before ++ tick :: after ∧
      FiredBy budget tick ((ticks budget).run system before).database row := by
  induction labels generalizing system with
  | nil =>
      have hself : row.id ∈ ahead system.database.schedules row :=
        mem_ahead.mpr ⟨row, hrow, ⟨hdue.1, le_refl _⟩, rfl⟩
      have hpositive := Finset.card_pos.mpr ⟨row.id, hself⟩
      rw [List.length_nil] at hlength
      omega
  | cons tick labels ih =>
      obtain ⟨hnow, htail⟩ := List.forall_mem_cons.mp hfireable
      obtain ⟨⟨⟨hclock, hsucceeds⟩, hhead⟩, hrest⟩ := hclear
      have hdue := due_mono hclock hdue
      rcases firedBy_or_ahead hbudget hsucceeds hhead hrow hdue hnow with
        hfired | ⟨hstays, hahead⟩
      · exact ⟨[], tick, labels, rfl, hfired⟩
      · have hless := Finset.card_lt_card hahead
        have hlength : (ahead (dispatch budget tick system.database).2.schedules row).card ≤
            labels.length := by
          rw [List.length_cons] at hlength
          omega
        obtain ⟨before, later, after, hsplit, hfired⟩ := ih hstays hdue htail hrest hlength
        exact ⟨tick :: before, later, after, congrArg (tick :: ·) hsplit, hfired⟩

end Progress

/-- Schedules that cannot be fired starve the others when they are read in place of one
that can.  A tick fires as many schedules as its budget and the table allow exactly when
no such row is left behind; and when that holds at every tick, every due schedule that
can be fired is fired within as many ticks as there are schedules. -/
theorem fires_enough_iff {budget : ℤ} (hbudget : 1 ≤ budget) :
    (∀ tick database, Succeeds (dispatch budget tick database).1 →
      (min budget.toNat (fireableDue tick.now database.schedules).length ≤
          (dispatch budget tick database).1.countP (fun result => result.2.isFired) ↔
        HeadClear budget tick.now database.schedules)) ∧
    ∀ system labels row, row ∈ system.database.schedules.rows → Due system.now row →
      (∀ tick ∈ labels, fireable tick.now (scanSchedule row) = true) →
      ((ticks budget).restrict (Clear budget)).AllowedRun system labels →
      system.database.schedules.rows.length ≤ labels.length →
        ∃ before tick after, labels = before ++ tick :: after ∧
          FiredBy budget tick ((ticks budget).run system before).database row := by
  constructor
  · intro tick database hsucceeds
    rw [dispatch, countP_isFired hsucceeds]
    exact countP_fireable_iff hbudget
  · intro system labels row hrow hdue hfireable hclear hlength
    exact exists_firedBy hbudget hrow hdue hfireable hclear (le_trans card_ahead_le hlength)

/-! ## A row that cannot be fired in front of one that can -/

/-- Midnight of the first of June 2027. -/
def juneFirst : ℤ := timeDate 2027 6 1 0

def juneTick : Tick where
  now := juneFirst
  envs _ := JobMachine.plainEnv 1 juneFirst "job-1"

/-- An older schedule whose expression does not parse stands in front. -/
def blockedDatabase : Database where
  jobs := Table.empty JobStore.jobs
  schedules := {
    rows := [
      { plainSchedule "hourly" (juneFirst - minute) with id := "schedule-0", name := "broken" },
      plainSchedule "* * * * *" juneFirst]
    keyed := List.pairwise_pair.mpr (by decide)
    indexed := List.pairwise_pair.mpr (by right; decide) }

/-- With a budget for both schedules the one that can be fired is. -/
theorem fires_enough_minutely :
    min 2 (fireableDue juneFirst blockedDatabase.schedules).length ≤
        (dispatch 2 juneTick blockedDatabase).1.countP (fun result => result.2.isFired) ∧
      ∃ before tick after, [juneTick, juneTick] = before ++ tick :: after ∧
        FiredBy 2 tick ((ticks 2).run ⟨blockedDatabase, juneFirst⟩ before).database
          (plainSchedule "* * * * *" juneFirst) := by
  have hsucceeds : Succeeds (dispatch 2 juneTick blockedDatabase).1 := by
    unfold Succeeds
    decide +kernel
  have hagain : Succeeds (dispatch 2 juneTick (dispatch 2 juneTick blockedDatabase).2).1 := by
    unfold Succeeds
    decide +kernel
  have hclear : HeadClear 2 juneFirst blockedDatabase.schedules := by
    unfold HeadClear
    decide +kernel
  have hclearAgain : HeadClear 2 juneFirst (dispatch 2 juneTick blockedDatabase).2.schedules := by
    unfold HeadClear
    decide +kernel
  have hdue : Due juneFirst (plainSchedule "* * * * *" juneFirst) := by decide +kernel
  constructor
  · exact ((fires_enough_iff one_le_two).1 juneTick blockedDatabase hsucceeds).mpr hclear
  · refine (fires_enough_iff one_le_two).2 ⟨blockedDatabase, juneFirst⟩ [juneTick, juneTick] _
      (List.mem_cons_of_mem _ (List.mem_singleton_self _)) hdue ?_
      ⟨⟨⟨le_refl _, hsucceeds⟩, hclear⟩, ⟨⟨le_refl _, hagain⟩, hclearAgain⟩, trivial⟩ (le_refl _)
    decide +kernel

theorem not_forall_fires_enough :
    ¬ ∀ budget tick database, 1 ≤ budget → Succeeds (dispatch budget tick database).1 →
      min budget.toNat (fireableDue tick.now database.schedules).length ≤
        (dispatch budget tick database).1.countP (fun result => result.2.isFired) := by
  intro hforall
  have hsucceeds : Succeeds (dispatch 1 juneTick blockedDatabase).1 := by
    unfold Succeeds
    decide +kernel
  exact absurd (hforall 1 juneTick blockedDatabase (le_refl 1) hsucceeds) (by decide +kernel)

end Conduit.Scheduler
