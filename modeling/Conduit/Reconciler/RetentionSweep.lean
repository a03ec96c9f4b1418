import Conduit.Core.Pruning
import Conduit.Reconciler.Reconcile

/-!
# What a retention sweep deletes

`sweepRetention` deletes finished jobs in batches, one state after the other, and stops a state
at the first short batch or after twenty of them.  Undisturbed, the batches of a state come to
one cut: the oldest rows beyond the retention age, up to twenty batches of them.

The age is counted back from the clock of the process in nanoseconds, but the cutoff reaches
the database as a `timestamptz`.  A row that was completed in the microsecond of the cutoff is
therefore left for the next sweep, although it is older than the cutoff by the clock.
-/

namespace Conduit.RetentionSweep

open Models Relational JobStore JobService Pruning Reconciler

/-! ## The batches of one state -/

/-- The batch loop of `sweepRetention` for one state, with so many rounds left. -/
def deleteBatches (retention : RetentionConfig) (state : JobState) (before : ℤ) :
    ℕ → JobTable → JobTable
  | 0, table => table
  | rounds + 1, table =>
      match deleteFinishedSelect table state before retention.batchSize with
      | .error _ => table
      | .ok ids =>
          if ((deleteFinishedExec table ids).1 : ℤ) < retention.batchSize then
            (deleteFinishedExec table ids).2
          else deleteBatches retention state before rounds (deleteFinishedExec table ids).2

section Batches

variable {state : JobState} {before limit : ℤ}

/-- The rows of one batch. -/
def batch (state : JobState) (before limit : ℤ) (table : JobTable) : List Row :=
  selectOrdered completedBefore (FinishedBefore state before) limit.toNat table.rows

theorem deleteFinishedSelect_eq (hstate : state = .completed ∨ state = .dead)
    (hlimit : 0 < limit) (table : JobTable) :
    deleteFinishedSelect table state before limit =
      .ok ((batch state before limit table).map Row.id) := by
  have hfinished : ¬ (state ≠ .completed ∧ state ≠ .dead) := by
    rw [not_and_or, not_not, not_not]
    exact hstate
  rw [deleteFinishedSelect, if_neg hfinished, if_neg (not_le.mpr hlimit), batch]

theorem deleteFinishedExec_batch (state : JobState) (before limit : ℤ) (table : JobTable) :
    (deleteFinishedExec table ((batch state before limit table).map Row.id)).1 =
        min (table.rows.countP (FinishedBefore state before ·)) limit.toNat ∧
      Prunes completedBefore (FinishedBefore state before) limit.toNat table.rows
        (deleteFinishedExec table ((batch state before limit table).map Row.id)).2.rows := by
  have htaken : batch state before limit table ⊆ table.rows := fun row hrow =>
    (mem_selectOrdered hrow).1
  have hids : ∀ row ∈ table.rows,
      (row.id ∈ (batch state before limit table).map Row.id ↔
        row ∈ batch state before limit table) := fun row hrow =>
    table.key_mem_map_iff htaken hrow
  have hleft : (deleteFinishedExec table
      ((batch state before limit table).map Row.id)).2.rows =
        table.rows.filter fun row => row ∉ batch state before limit table := by
    apply List.filter_congr
    intro row hrow
    rw [decide_eq_decide]
    exact not_congr (hids row hrow)
  constructor
  · have hcounted := countP_selectOrdered completedBefore (FinishedBefore state before)
      limit.toNat table.nodup
    rw [← hcounted, deleteFinishedExec, ← List.countP_eq_length_filter]
    apply List.countP_congr
    intro row hrow
    rw [decide_eq_true_eq, Bool.and_eq_true, decide_eq_true_eq, decide_eq_true_eq, hids row hrow]
    exact ⟨fun hmem => ⟨(mem_selectOrdered hmem).2, hmem⟩, fun hmem => hmem.2⟩
  · rw [hleft]
    exact prunes_selectOrdered completedBefore (FinishedBefore state before) limit.toNat
      table.nodup

/-- The batches add up: a short one means that nothing is left to delete. -/
theorem prunes_deleteBatches {retention : RetentionConfig} (hbatch : 0 < retention.batchSize)
    (hstate : state = .completed ∨ state = .dead) (rounds : ℕ) (table : JobTable) :
    Prunes completedBefore (FinishedBefore state before)
      (rounds * retention.batchSize.toNat) table.rows
      (deleteBatches retention state before rounds table).rows := by
  induction rounds generalizing table with
  | zero =>
      rw [Nat.zero_mul]
      exact .refl ..
  | succ rounds ih =>
      obtain ⟨hdeleted, hprunes⟩ :=
        deleteFinishedExec_batch state before retention.batchSize table
      unfold deleteBatches
      rw [deleteFinishedSelect_eq hstate hbatch table]
      simp only
      split
      · rename_i hshort
        rw [hdeleted] at hshort
        refine hprunes.of_le (by omega) ?_
        rw [Nat.succ_mul]
        exact Nat.le_add_left ..
      · rw [Nat.succ_mul, Nat.add_comm]
        exact hprunes.trans (ih _)

end Batches

/-! ## The sweep of all states -/

/-- The sweep from the head of the batch loop on. -/
def sweepRest (retention : RetentionConfig) (now : ℤ) :
    List (JobState × ℤ) → ℕ → JobTable → JobTable
  | [], _, table => table
  | (state, age) :: targets, batches, table =>
      sweepRest retention now targets 0
        (if age ≤ 0 then table
        else deleteBatches retention state (now - age) (maxSweepBatches - batches) table)

/-- Each state with an age has lost the oldest of its rows beyond that age, up to a limit, and
no other row is gone. -/
structure Pruned (old : JobState → ℤ → Row → Prop)
    [∀ state before, DecidablePred (old state before)] (targets : List (JobState × ℤ))
    (now : ℤ) (limit : ℕ) (table final : JobTable) : Prop where
  sublist : final.rows.Sublist table.rows
  selected : ∀ row ∈ table.rows, row ∉ final.rows →
    ∃ target ∈ targets, 0 < target.2 ∧ old target.1 (now - target.2) row
  counted : ∀ target ∈ targets, 0 < target.2 →
    table.rows.countP (fun row => old target.1 (now - target.2) row ∧ row ∉ final.rows) =
      min (table.rows.countP (old target.1 (now - target.2) ·)) limit
  oldest : ∀ target ∈ targets, 0 < target.2 →
    ∀ row ∈ table.rows, old target.1 (now - target.2) row → row ∉ final.rows →
      ∀ kept ∈ final.rows, old target.1 (now - target.2) kept → completedBefore row kept

section Targets

variable {targets : List (JobState × ℤ)} {now age : ℤ} {state : JobState} {limit : ℕ}
  {table middle final : JobTable}

/-- A state with no age is passed over. -/
theorem Pruned.skip (hpruned : Pruned FinishedBefore targets now limit table final)
    (hage : age ≤ 0) : Pruned FinishedBefore ((state, age) :: targets) now limit table final where
  sublist := hpruned.sublist
  selected row hrow hgone := by
    obtain ⟨target, htarget, hselected⟩ := hpruned.selected row hrow hgone
    exact ⟨target, List.mem_cons_of_mem _ htarget, hselected⟩
  counted target htarget hpositive := by
    rcases List.mem_cons.mp htarget with rfl | htarget
    · exact absurd hage (not_le.mpr hpositive)
    · exact hpruned.counted target htarget hpositive
  oldest target htarget hpositive := by
    rcases List.mem_cons.mp htarget with rfl | htarget
    · exact absurd hage (not_le.mpr hpositive)
    · exact hpruned.oldest target htarget hpositive

/-- Pruning one state does not touch the rows of the others. -/
theorem Pruned.cons (hage : 0 < age) (hstate : ∀ target ∈ targets, target.1 ≠ state)
    (hprunes : Prunes completedBefore (FinishedBefore state (now - age)) limit table.rows
      middle.rows)
    (hpruned : Pruned FinishedBefore targets now limit middle final) :
    Pruned FinishedBefore ((state, age) :: targets) now limit table final := by
  -- What is gone of the first state is gone after its own batches.
  have hown : ∀ row ∈ table.rows, row.state = state →
      (row ∉ final.rows ↔ row ∉ middle.rows) := by
    intro row hrow hsame
    refine ⟨fun hgone hmiddle => ?_, fun hgone hfinal => hgone (hpruned.sublist.subset hfinal)⟩
    obtain ⟨target, htarget, -, hselected⟩ := hpruned.selected row hmiddle hgone
    exact hstate target htarget (hselected.1.symm.trans hsame)
  -- Nothing of the other states is gone by then.
  have hothers : ∀ target ∈ targets, ∀ row ∈ table.rows, row.state = target.1 →
      row ∈ middle.rows := by
    intro target htarget row hrow hsame
    by_contra hgone
    exact hstate target htarget (hsame.symm.trans (hprunes.selected row hrow hgone).1)
  constructor
  · exact hpruned.sublist.trans hprunes.sublist
  · intro row hrow hgone
    by_cases hmiddle : row ∈ middle.rows
    · obtain ⟨target, htarget, hselected⟩ := hpruned.selected row hmiddle hgone
      exact ⟨target, List.mem_cons_of_mem _ htarget, hselected⟩
    · exact ⟨(state, age), List.mem_cons_self, hage, hprunes.selected row hrow hmiddle⟩
  · intro target htarget hpositive
    rcases List.mem_cons.mp htarget with rfl | htarget
    · rw [← hprunes.countP_gone table.nodup]
      apply List.countP_congr
      intro row hrow
      simp only [Bool.and_eq_true, decide_eq_true_eq]
      exact and_congr_right fun hold => hown row hrow hold.1
    · rw [countP_eq_of_sublist table.nodup hprunes.sublist, countP_eq_of_sublist table.nodup
        hprunes.sublist, hpruned.counted target htarget hpositive]
      · intro row hrow hold
        rw [decide_eq_true_eq] at hold
        exact hothers target htarget row hrow hold.1
      · intro row hrow hold
        rw [decide_eq_true_eq] at hold
        exact hothers target htarget row hrow hold.1.1
  · intro target htarget hpositive row hrow hold hgone kept hkept hkeptOld
    rcases List.mem_cons.mp htarget with rfl | htarget
    · exact hprunes.first row hrow ((hown row hrow hold.1).mp hgone) kept
        (hpruned.sublist.subset hkept) hkeptOld
    · exact hpruned.oldest target htarget hpositive row (hothers target htarget row hrow hold.1)
        hold hgone kept hkept hkeptOld

theorem pruned_nil (now : ℤ) (limit : ℕ) (table : JobTable) :
    Pruned FinishedBefore [] now limit table table where
  sublist := .refl table.rows
  selected _ hrow hgone := absurd hrow hgone
  counted _ htarget := nomatch htarget
  oldest _ htarget := nomatch htarget

theorem pruned_sweepRest {retention : RetentionConfig} (hbatch : 0 < retention.batchSize)
    (hstates : ∀ target ∈ targets, target.1 = .completed ∨ target.1 = .dead)
    (hdistinct : (targets.map Prod.fst).Nodup) (now : ℤ) (table : JobTable) :
    Pruned FinishedBefore targets now (maxSweepBatches * retention.batchSize.toNat) table
      (sweepRest retention now targets 0 table) := by
  induction targets generalizing table with
  | nil => exact pruned_nil ..
  | cons target targets ih =>
      obtain ⟨state, age⟩ := target
      obtain ⟨hstate, hothers⟩ := List.forall_mem_cons.mp hstates
      rw [List.map_cons, List.nodup_cons] at hdistinct
      rw [sweepRest]
      by_cases hage : age ≤ 0
      · rw [if_pos hage]
        exact (ih hothers hdistinct.2 table).skip hage
      · rw [if_neg hage]
        refine .cons (not_le.mp hage) ?_ (prunes_deleteBatches hbatch hstate _ table)
          (ih hothers hdistinct.2 _)
        intro target htarget hsame
        exact hdistinct.1 (List.mem_map.mpr ⟨target, htarget, hsame⟩)

end Targets

/-! ## The pass -/

/-- The stages of a sweep under way, and of the pass after it. -/
def sweeping : Stage → Bool
  | .sweep _ | .deleteSelect _ | .deleteExec .. | .returned => true
  | _ => false

/-- How many steps a sweep has before it at most. -/
def sweepCost : List (JobState × ℤ) → ℕ → ℕ
  | [], _ => 1
  | _ :: targets, batches => 3 * (maxSweepBatches - batches) + 1 + sweepCost targets 0

def stepsLeft : Stage → ℕ
  | .sweep left => sweepCost left.targets left.batches
  | .deleteSelect left => sweepCost left.targets (left.batches + 1) + 2
  | .deleteExec left _ => sweepCost left.targets (left.batches + 1) + 1
  | _ => 0

/-- The table once the rows of a batch have been deleted and the sweep has gone on. -/
def afterExec (retention : RetentionConfig) (left : Sweep) (table : JobTable)
    (ids : List String) : JobTable :=
  if ((deleteFinishedExec table ids).1 : ℤ) < retention.batchSize then
    sweepRest retention left.now left.targets.tail 0 (deleteFinishedExec table ids).2
  else
    sweepRest retention left.now left.targets (left.batches + 1) (deleteFinishedExec table ids).2

/-- The table a sweep will leave if nothing disturbs it. -/
def outcome (pass : Pass) : JobTable :=
  match pass.stage with
  | .sweep left =>
      sweepRest pass.cfg.retention left.now left.targets left.batches pass.table
  | .deleteSelect left =>
      match left.targets with
      | [] => pass.table
      | (state, age) :: targets =>
          match deleteFinishedSelect pass.table state (left.now - age)
              pass.cfg.retention.batchSize with
          | .ok ids => afterExec pass.cfg.retention left pass.table ids
          | .error _ => sweepRest pass.cfg.retention left.now targets 0 pass.table
  | .deleteExec left ids => afterExec pass.cfg.retention left pass.table ids
  | _ => pass.table

/-- A sweep has gone on by so many steps. -/
structure GoesOn (pass next : Pass) (steps : ℕ) : Prop where
  cfg : next.cfg = pass.cfg
  cancelled : next.cancelled = pass.cancelled
  sweeping : sweeping next.stage = true
  outcome : outcome next = outcome pass
  steps : stepsLeft next.stage ≤ stepsLeft pass.stage - steps

theorem GoesOn.trans {pass next last : Pass} {steps more : ℕ} (hfirst : GoesOn pass next steps)
    (hsecond : GoesOn next last more) : GoesOn pass last (steps + more) where
  cfg := hsecond.cfg.trans hfirst.cfg
  cancelled := hsecond.cancelled.trans hfirst.cancelled
  sweeping := hsecond.sweeping
  outcome := hsecond.outcome.trans hfirst.outcome
  steps := by
    have hsteps := hfirst.steps
    have hmore := hsecond.steps
    omega

section Steps

variable {pass : Pass} {left : Sweep} {ids : List String}

theorem sweepCost_tail_le (targets : List (JobState × ℤ)) (batches : ℕ) :
    sweepCost targets.tail 0 ≤ sweepCost targets batches := by
  cases targets with
  | nil => exact le_rfl
  | cons target targets => exact Nat.le_add_left ..

/-- A state that needs no batch, or has had its twenty. -/
theorem sweepRest_of_done {retention : RetentionConfig} {now age : ℤ} {state : JobState}
    {targets : List (JobState × ℤ)} {batches : ℕ} {table : JobTable}
    (hdone : age ≤ 0 ∨ maxSweepBatches ≤ batches) :
    sweepRest retention now ((state, age) :: targets) batches table =
      sweepRest retention now targets 0 table := by
  rw [sweepRest]
  by_cases hage : age ≤ 0
  · rw [if_pos hage]
  · rw [if_neg hage, Nat.sub_eq_zero_of_le (hdone.resolve_left hage), deleteBatches]

/-- A state that is due for a batch. -/
theorem sweepRest_of_due {retention : RetentionConfig} {table : JobTable} {state : JobState}
    {age : ℤ} {targets : List (JobState × ℤ)} (htargets : left.targets = (state, age) :: targets)
    (hdue : ¬ (age ≤ 0 ∨ maxSweepBatches ≤ left.batches)) :
    sweepRest retention left.now ((state, age) :: targets) left.batches table =
      match deleteFinishedSelect table state (left.now - age) retention.batchSize with
      | .ok ids => afterExec retention left table ids
      | .error _ => sweepRest retention left.now targets 0 table := by
  obtain ⟨hage, hbatches⟩ := not_or.mp hdue
  have hrounds : maxSweepBatches - left.batches = maxSweepBatches - (left.batches + 1) + 1 := by
    omega
  rw [sweepRest, if_neg hage, hrounds, deleteBatches]
  cases deleteFinishedSelect table state (left.now - age) retention.batchSize with
  | error error => rfl
  | ok ids =>
      simp only [afterExec, htargets, List.tail_cons]
      split
      · rfl
      · rw [sweepRest, if_neg hage]

theorem goesOn_sweep (hstage : pass.stage = .sweep left) (hcancelled : pass.cancelled = false) :
    GoesOn pass (pass.sweep left) 1 := by
  cases htargets : left.targets with
  | nil =>
      have hnext : pass.sweep left = { pass with stage := .returned } := by
        rw [Pass.sweep, htargets]
      rw [hnext]
      refine ⟨rfl, rfl, rfl, ?_, Nat.zero_le _⟩
      simp only [outcome, hstage, htargets, sweepRest]
  | cons target targets =>
      obtain ⟨state, age⟩ := target
      by_cases hdone : age ≤ 0 ∨ maxSweepBatches ≤ left.batches
      · have hnext : pass.sweep left =
            { pass with stage := .sweep { left with targets, batches := 0 } } := by
          rw [Pass.sweep, htargets]
          simp only [if_pos hdone]
        rw [hnext]
        refine ⟨rfl, rfl, rfl, ?_, ?_⟩
        · simp only [outcome, hstage, htargets]
          exact (sweepRest_of_done hdone).symm
        · simp only [stepsLeft, hstage, htargets, sweepCost]
          omega
      · have hnext : pass.sweep left = { pass with stage := .deleteSelect left } := by
          rw [Pass.sweep, htargets]
          simp only [if_neg hdone, hcancelled, Bool.false_eq_true, if_false]
        rw [hnext]
        refine ⟨rfl, rfl, rfl, ?_, ?_⟩
        · simp only [outcome, hstage, htargets]
          exact (sweepRest_of_due htargets hdone).symm
        · simp only [stepsLeft, hstage, htargets, sweepCost]
          omega

theorem goesOn_deleteSelect (hstage : pass.stage = .deleteSelect left)
    (hcancelled : pass.cancelled = false) : GoesOn pass (pass.deleteSelect left) 1 := by
  cases htargets : left.targets with
  | nil =>
      have hnext : pass.deleteSelect left = { pass with stage := .returned } := by
        rw [Pass.deleteSelect, htargets]
      rw [hnext]
      refine ⟨rfl, rfl, rfl, ?_, Nat.zero_le _⟩
      simp only [outcome, hstage, htargets]
  | cons target targets =>
      obtain ⟨state, age⟩ := target
      cases hselect : deleteFinishedSelect pass.table state (left.now - age)
          pass.cfg.retention.batchSize with
      | error error =>
          have hnext : pass.deleteSelect left =
              { pass with stage := .sweep { left with targets, batches := 0 } } := by
            rw [Pass.deleteSelect, htargets]
            simp only [hcancelled, Bool.false_eq_true, if_false, hselect]
          rw [hnext]
          refine ⟨rfl, rfl, rfl, ?_, ?_⟩
          · simp only [outcome, hstage, htargets, hselect]
          · have htail := sweepCost_tail_le left.targets (left.batches + 1)
            simp only [stepsLeft, hstage]
            rw [htargets] at htail ⊢
            exact Nat.le_add_right_of_le htail
      | ok ids =>
          have hnext : pass.deleteSelect left = { pass with stage := .deleteExec left ids } := by
            rw [Pass.deleteSelect, htargets]
            simp only [hcancelled, Bool.false_eq_true, if_false, hselect]
          rw [hnext]
          refine ⟨rfl, rfl, rfl, ?_, ?_⟩
          · simp only [outcome, hstage, htargets, hselect]
          · simp only [stepsLeft, hstage]
            omega

theorem goesOn_deleteExec (hstage : pass.stage = .deleteExec left ids) :
    GoesOn pass (pass.deleteExec left ids) 1 := by
  have htail := sweepCost_tail_le left.targets (left.batches + 1)
  by_cases hshort : ((deleteFinishedExec pass.table ids).1 : ℤ) < pass.cfg.retention.batchSize
  · have hnext : pass.deleteExec left ids = { pass with
        table := (deleteFinishedExec pass.table ids).2
        stage := .sweep { left with targets := left.targets.tail, batches := 0 } } := by
      rw [Pass.deleteExec]
      simp only [if_pos hshort]
    rw [hnext]
    refine ⟨rfl, rfl, rfl, ?_, ?_⟩
    · simp only [outcome, hstage, afterExec, if_pos hshort]
    · simp only [stepsLeft, hstage]
      omega
  · have hnext : pass.deleteExec left ids = { pass with
        table := (deleteFinishedExec pass.table ids).2
        stage := .sweep { left with batches := left.batches + 1 } } := by
      rw [Pass.deleteExec]
      simp only [if_neg hshort]
    rw [hnext]
    refine ⟨rfl, rfl, rfl, ?_, ?_⟩
    · simp only [outcome, hstage, afterExec, if_neg hshort]
    · simp only [stepsLeft, hstage]
      omega

theorem goesOn_advance (env : Env) (prefersSend : Bool) (hsweeping : sweeping pass.stage = true)
    (hcancelled : pass.cancelled = false) : GoesOn pass (pass.advance env prefersSend) 1 := by
  unfold Pass.advance
  split
  case h_8 left hstage => exact goesOn_sweep hstage hcancelled
  case h_9 left hstage => exact goesOn_deleteSelect hstage hcancelled
  case h_10 left ids hstage => exact goesOn_deleteExec hstage
  case h_11 hstage =>
    refine ⟨rfl, rfl, hsweeping, rfl, ?_⟩
    rw [hstage]
    exact Nat.zero_le _
  all_goals
    rename_i hstage
    rw [hstage] at hsweeping
    cases hsweeping

end Steps

/-- Steps of the pass and of the pool: nobody cancels the context and nobody else writes. -/
def quiet : Label → Bool
  | .pool _ | .step .. => true
  | _ => false

def isStep : Label → Bool
  | .step .. => true
  | _ => false

theorem goesOn_step {pass : Pass} {label : Label} (hsweeping : sweeping pass.stage = true)
    (hcancelled : pass.cancelled = false) (hquiet : quiet label = true) :
    GoesOn pass (pass.step label) (if isStep label then 1 else 0) := by
  cases label with
  | cancel => cases hquiet
  | others table => cases hquiet
  | pool label => exact ⟨rfl, rfl, hsweeping, rfl, le_rfl⟩
  | step env prefersSend => exact goesOn_advance env prefersSend hsweeping hcancelled

theorem goesOn_run {pass : Pass} {labels : List Label} (hsweeping : sweeping pass.stage = true)
    (hcancelled : pass.cancelled = false) (hquiet : ∀ label ∈ labels, quiet label = true) :
    GoesOn pass (machine.run pass labels) (labels.countP isStep) := by
  induction labels generalizing pass with
  | nil => exact ⟨rfl, rfl, hsweeping, rfl, le_rfl⟩
  | cons label labels ih =>
      obtain ⟨hlabel, hothers⟩ := List.forall_mem_cons.mp hquiet
      have hstep := goesOn_step hsweeping hcancelled hlabel
      have hrest := ih hstep.sweeping (hstep.cancelled.trans hcancelled) hothers
      rw [List.countP_cons, Nat.add_comm]
      exact hstep.trans hrest

/-- A sweep that has no steps left has returned, and has left the table it was to leave. -/
theorem returned_of_stepsLeft {pass : Pass} (hsweeping : sweeping pass.stage = true)
    (hsteps : stepsLeft pass.stage = 0) :
    pass.stage = .returned ∧ outcome pass = pass.table := by
  have hpositive : ∀ targets batches, sweepCost targets batches ≠ 0 := by
    intro targets batches
    cases targets with
    | nil => exact Nat.one_ne_zero
    | cons target targets =>
        rw [sweepCost]
        omega
  cases hstage : pass.stage with
  | returned => exact ⟨rfl, by rw [outcome, hstage]⟩
  | sweep left =>
      rw [hstage] at hsteps
      exact absurd hsteps (hpositive left.targets left.batches)
  | deleteSelect left =>
      rw [hstage] at hsteps
      cases hsteps
  | deleteExec left ids =>
      rw [hstage] at hsteps
      cases hsteps
  | _ =>
      rw [hstage] at hsweeping
      cases hsweeping

/-! ## The start of a sweep -/

def retentionTargets (retention : RetentionConfig) : List (JobState × ℤ) :=
  [(.completed, retention.completed), (.dead, retention.dead)]

/-- The throttle lets a sweep through. -/
def Sweeps (pass : Pass) (env : Env) : Prop :=
  (pass.housekeep env).stage ≠ .returned

instance (pass : Pass) (env : Env) : Decidable (Sweeps pass env) :=
  inferInstanceAs (Decidable (_ ≠ _))

/-- A pass whose sweep has just started. -/
def begun (pass : Pass) (env : Env) : Pass := { pass with
  lastSweep := if env.now = zeroTime then none else some env.now
  stage := .sweep ⟨env.now, retentionTargets pass.cfg.retention, 0⟩ }

/-- Either there is no sweep, or one starts an interval after the last one at the earliest. -/
theorem housekeep_cases (pass : Pass) (env : Env) :
    pass.housekeep env = { pass with stage := .returned } ∨
      pass.housekeep env = begun pass env ∧
        ∀ last ∈ pass.lastSweep, pass.cfg.retention.interval ≤ env.now - last := by
  unfold Pass.housekeep
  simp only
  split
  · exact .inl rfl
  · split
    · exact .inl rfl
    · rename_i hdue
      refine .inr ⟨rfl, fun last hlast => ?_⟩
      by_contra hearly
      exact hdue ⟨last, hlast, not_le.mp hearly⟩

theorem housekeep_of_sweeps {pass : Pass} {env : Env} (hsweeps : Sweeps pass env) :
    pass.housekeep env = begun pass env ∧
      ∀ last ∈ pass.lastSweep, pass.cfg.retention.interval ≤ env.now - last :=
  (housekeep_cases pass env).resolve_left fun hreturned =>
    hsweeps (congrArg Pass.stage hreturned)

theorem housekeep_of_not_sweeps {pass : Pass} {env : Env} (hsweeps : ¬ Sweeps pass env) :
    pass.housekeep env = { pass with stage := .returned } := by
  refine (housekeep_cases pass env).resolve_right fun hbegun => hsweeps ?_
  rw [Sweeps, hbegun.1]
  exact Stage.noConfusion

theorem new_retention (cfg : Config) :
    0 < (new cfg).retention.batchSize ∧ 0 < (new cfg).retention.interval := by
  constructor
  · simp only [new]
    split
    · decide
    · omega
  · simp only [new]
    split
    · decide
    · omega

/-- As many steps as a sweep can have. -/
def sweepSteps : ℕ :=
  2 * (3 * maxSweepBatches + 1) + 1

/-- Any sweep that runs undisturbed ends, with the table pruned of what is too old. -/
def PrunesExactly (old : JobState → ℤ → Row → Prop)
    [∀ state before, DecidablePred (old state before)] : Prop :=
  ∀ (cfg : Config) (pass : Pass) (env : Env) (prefersSend : Bool) (labels : List Label),
    pass.cfg = new cfg → pass.stage = .housekeep → pass.cancelled = false → Sweeps pass env →
      (∀ label ∈ labels, quiet label = true) → sweepSteps ≤ labels.countP isStep →
        (machine.run pass (.step env prefersSend :: labels)).stage = .returned ∧
          Pruned old (retentionTargets pass.cfg.retention) env.now
            (maxSweepBatches * pass.cfg.retention.batchSize.toNat) pass.table
            (machine.run pass (.step env prefersSend :: labels)).table

/-- The table an undisturbed sweep leaves. -/
theorem run_of_sweeps {pass : Pass} {env : Env} {prefersSend : Bool} {labels : List Label}
    (hstage : pass.stage = .housekeep) (hcancelled : pass.cancelled = false)
    (hsweeps : Sweeps pass env) (hquiet : ∀ label ∈ labels, quiet label = true)
    (hsteps : sweepSteps ≤ labels.countP isStep) :
    (machine.run pass (.step env prefersSend :: labels)).stage = .returned ∧
      (machine.run pass (.step env prefersSend :: labels)).table =
        sweepRest pass.cfg.retention env.now (retentionTargets pass.cfg.retention) 0
          pass.table := by
  have hfirst : machine.run pass (.step env prefersSend :: labels) =
      machine.run (pass.housekeep env) labels := by
    change machine.run (pass.advance env prefersSend) labels = _
    rw [Pass.advance, hstage]
  rw [hfirst, (housekeep_of_sweeps hsweeps).1]
  have hgoesOn : GoesOn (begun pass env) (machine.run (begun pass env) labels)
      (labels.countP isStep) := goesOn_run rfl hcancelled hquiet
  have hnone := Nat.le_zero.mp (hgoesOn.steps.trans (Nat.sub_eq_zero_of_le hsteps).le)
  obtain ⟨hreturned, htable⟩ := returned_of_stepsLeft hgoesOn.sweeping hnone
  exact ⟨hreturned, htable.symm.trans hgoesOn.outcome⟩

theorem prunesExactly_finishedBefore : PrunesExactly FinishedBefore := by
  intro cfg pass env prefersSend labels hcfg hstage hcancelled hsweeps hquiet hsteps
  obtain ⟨hreturned, htable⟩ := run_of_sweeps hstage hcancelled hsweeps hquiet hsteps
  refine ⟨hreturned, ?_⟩
  rw [htable]
  apply pruned_sweepRest
  · rw [hcfg]
    exact (new_retention cfg).1
  · simp [retentionTargets]
  · simp [retentionTargets]

/-! ## Sweeps over many passes -/

inductive Event
  | within (label : Label)
  /-- A pass has returned and the next one begins, with the table and the pool as they are
  by then. -/
  | again (table : JobTable) (pool : WorkerPool.Pool Job)

/-- The clock reading of an event. -/
def Event.clock : Event → Option ℤ
  | .within (.step env _) => some env.now
  | _ => none

def after (pass : Pass) : Event → Pass
  | .within label => pass.step label
  | .again table pool =>
      if pass.stage = .returned then { pass with
        table, pool, stage := .reap, hadWork := false, claimed := 0, claims := [],
        accepted := [], refused := [] }
      else pass

/-- The time at which an event starts a sweep, if it does. -/
def sweepStart (pass : Pass) : Event → Option ℤ
  | .within (.step env _) =>
      if pass.stage = .housekeep ∧ Sweeps pass env then some env.now else none
  | _ => none

def sweepStarts : Pass → List Event → List ℤ
  | _, [] => []
  | pass, event :: events => (sweepStart pass event).toList ++ sweepStarts (after pass event) events

theorem advance_frame (pass : Pass) (env : Env) (prefersSend : Bool) :
    (pass.advance env prefersSend).cfg = pass.cfg ∧
      (pass.stage ≠ .housekeep →
        (pass.advance env prefersSend).lastSweep = pass.lastSweep) := by
  unfold Pass.advance
  split
  case h_1 =>
    unfold Pass.reap
    split <;> exact ⟨rfl, fun _ => rfl⟩
  case h_2 =>
    unfold Pass.loop
    split <;> exact ⟨rfl, fun _ => rfl⟩
  case h_3 =>
    unfold Pass.claim
    split
    · exact ⟨rfl, fun _ => rfl⟩
    · simp only
      split <;> exact ⟨rfl, fun _ => rfl⟩
  case h_5 =>
    unfold Pass.submit
    split <;> exact ⟨rfl, fun _ => rfl⟩
  case h_7 hstage =>
    refine ⟨?_, fun hother => absurd hstage hother⟩
    by_cases hsweeps : Sweeps pass env
    · rw [(housekeep_of_sweeps hsweeps).1]
      rfl
    · rw [housekeep_of_not_sweeps hsweeps]
  all_goals exact ⟨rfl, fun _ => rfl⟩

theorem cfg_after (pass : Pass) (event : Event) : (after pass event).cfg = pass.cfg := by
  cases event with
  | within label =>
      cases label with
      | step env prefersSend => exact (advance_frame pass env prefersSend).1
      | _ => rfl
  | again table pool =>
      rw [after]
      split <;> rfl

/-- An event that starts no sweep leaves the time of the last one. -/
theorem lastSweep_after {pass : Pass} {event : Event} (hnone : sweepStart pass event = none) :
    (after pass event).lastSweep = pass.lastSweep := by
  cases event with
  | within label =>
      cases label with
      | step env prefersSend =>
          by_cases hstage : pass.stage = .housekeep
          · have hsweeps : ¬ Sweeps pass env := by
              intro hsweeps
              rw [sweepStart, if_pos ⟨hstage, hsweeps⟩] at hnone
              cases hnone
            change (pass.advance env prefersSend).lastSweep = _
            rw [Pass.advance, hstage]
            simp only [housekeep_of_not_sweeps hsweeps]
          · exact (advance_frame pass env prefersSend).2 hstage
      | _ => rfl
  | again table pool =>
      rw [after]
      split <;> rfl

/-- A sweep starts no earlier than an interval after the last one, and is the last one from
then on. -/
theorem lastSweep_of_sweepStart {pass : Pass} {event : Event} {start : ℤ}
    (hstart : sweepStart pass event = some start) (hclock : event.clock ≠ some zeroTime) :
    (after pass event).lastSweep = some start ∧
      ∀ last ∈ pass.lastSweep, pass.cfg.retention.interval ≤ start - last := by
  cases event with
  | within label =>
      cases label with
      | step env prefersSend =>
          rw [sweepStart] at hstart
          split at hstart
          · rename_i hsweeps
            cases hstart
            obtain ⟨hstage, hsweeps⟩ := hsweeps
            obtain ⟨hhousekeep, hapart⟩ := housekeep_of_sweeps hsweeps
            have hnow : env.now ≠ zeroTime := fun hzero => hclock (congrArg some hzero)
            refine ⟨?_, hapart⟩
            change (pass.advance env prefersSend).lastSweep = _
            rw [Pass.advance, hstage]
            simp only [hhousekeep, begun, if_neg hnow]
          · cases hstart
      | _ => cases hstart
  | again table pool => cases hstart

/-- All sweeps to come are an interval after the last one and after each other. -/
theorem sweepStarts_apart {pass : Pass} {events : List Event}
    (hinterval : 0 < pass.cfg.retention.interval)
    (hclock : ∀ event ∈ events, event.clock ≠ some zeroTime) :
    (∀ start ∈ sweepStarts pass events, ∀ last ∈ pass.lastSweep,
        pass.cfg.retention.interval ≤ start - last) ∧
      (sweepStarts pass events).Pairwise fun earlier later =>
        pass.cfg.retention.interval ≤ later - earlier := by
  induction events generalizing pass with
  | nil => exact ⟨nofun, .nil⟩
  | cons event events ih =>
      obtain ⟨hevent, hothers⟩ := List.forall_mem_cons.mp hclock
      have hsame : 0 < (after pass event).cfg.retention.interval := by
        rwa [cfg_after]
      obtain ⟨hlater, hpairwise⟩ := ih hsame hothers
      rw [cfg_after] at hlater hpairwise
      rw [sweepStarts]
      cases hstart : sweepStart pass event with
      | none =>
          rw [lastSweep_after hstart] at hlater
          exact ⟨hlater, hpairwise⟩
      | some start =>
          obtain ⟨hlast, hapart⟩ := lastSweep_of_sweepStart hstart hevent
          rw [hlast] at hlater
          have hstarts : ∀ later ∈ sweepStarts (after pass event) events,
              pass.cfg.retention.interval ≤ later - start := fun later hmem =>
            hlater later hmem start rfl
          refine ⟨?_, List.pairwise_cons.mpr ⟨hstarts, hpairwise⟩⟩
          intro other hother last hmem
          rcases List.mem_cons.mp hother with rfl | hother
          · exact hapart last hmem
          · have hfirst := hapart last hmem
            have hsecond := hstarts other hother
            omega

/-- A sweep that runs undisturbed returns, and has deleted of each state with a positive age
the oldest rows completed before the cutoff in microseconds, as many as there are but no more
than twenty batches, and nothing else.  Over any sequence of passes whose clock never reads
the zero time, no two sweeps start less than the interval apart. -/
theorem retention_sweeps_exact :
    PrunesExactly FinishedBefore ∧
      ∀ (cfg : Config) (pass : Pass) (events : List Event), pass.cfg = new cfg →
        (∀ event ∈ events, event.clock ≠ some zeroTime) →
          (sweepStarts pass events).Pairwise fun earlier later =>
            pass.cfg.retention.interval ≤ later - earlier := by
  refine ⟨prunesExactly_finishedBefore, ?_⟩
  intro cfg pass events hcfg hclock
  refine (sweepStarts_apart ?_ hclock).2
  rw [hcfg]
  exact (new_retention cfg).2

/-- Completed before the cutoff to the nanosecond. -/
def CompletedBefore (state : JobState) (before : ℤ) (row : Row) : Prop :=
  row.state = state ∧ ∃ completedAt ∈ row.completedAt, completedAt < before

instance (state : JobState) (before : ℤ) : DecidablePred (CompletedBefore state before) :=
  fun _ => inferInstanceAs (Decidable (_ ∧ _))

/-- One job, completed at the first second. -/
def completedJob : JobTable where
  rows := [{ createRow 0 JobMachine.plainJob with
    state := .completed, completedAt := some second }]
  keyed := List.pairwise_singleton ..
  indexed := List.pairwise_singleton ..

/-- A pass that keeps completed jobs for an hour. -/
def hourlyPass : Pass where
  cfg := new ⟨second, 10, 0, [], ⟨hour, 0, 0, 0⟩⟩
  table := completedJob
  pool := WorkerPool.newPool ⟨1, 1⟩
  cancelled := false
  stage := .housekeep
  hadWork := false
  claimed := 0
  lastSweep := none
  claims := []
  accepted := []
  refused := []

/-- Steps enough for a sweep at that time. -/
def hourlyLabels (now : ℤ) : List Label :=
  List.replicate sweepSteps (.step (JobMachine.plainEnv 0 now "") false)

theorem quiet_hourlyLabels (now : ℤ) : ∀ label ∈ hourlyLabels now, quiet label = true := by
  intro label hlabel
  rw [List.eq_of_mem_replicate hlabel]
  rfl

theorem countP_hourlyLabels (now : ℤ) : sweepSteps ≤ (hourlyLabels now).countP isStep := by
  rw [hourlyLabels, List.countP_replicate]
  exact le_rfl

/-- The job is an hour and a microsecond old, and is deleted. -/
theorem retention_sweeps_exact_hourlyPass :
    let now := second + hour + 1000
    ∀ row ∈ completedJob.rows, row ∉ (machine.run hourlyPass
      (.step (JobMachine.plainEnv 0 now "") false :: hourlyLabels now)).table.rows := by
  intro now row hrow
  obtain ⟨-, hpruned⟩ := retention_sweeps_exact.1 _ hourlyPass
    (JobMachine.plainEnv 0 now "") false (hourlyLabels now) rfl rfl rfl (by decide)
    (quiet_hourlyLabels now) (countP_hourlyLabels now)
  have hcounted := hpruned.counted (.completed, hour) List.mem_cons_self (by decide)
  have hall := List.countP_eq_length.mp (hcounted.trans (by decide)) row hrow
  exact (of_decide_eq_true hall).2

/-- The job is an hour and half a microsecond old, and stays; and a clock that reads the zero
time starts one sweep after the other. -/
theorem not_prunesExactly_completedBefore : ¬ PrunesExactly CompletedBefore ∧
    ¬ ∀ (cfg : Config) (pass : Pass) (events : List Event), pass.cfg = new cfg →
      (sweepStarts pass events).Pairwise fun earlier later =>
        pass.cfg.retention.interval ≤ later - earlier := by
  constructor
  · intro hall
    let env := JobMachine.plainEnv 0 (second + hour + 500) ""
    have hsweeps : Sweeps hourlyPass env := by decide
    obtain ⟨-, htable⟩ := @run_of_sweeps hourlyPass env false _ rfl rfl hsweeps
      (quiet_hourlyLabels env.now) (countP_hourlyLabels env.now)
    obtain ⟨-, hpruned⟩ := hall _ hourlyPass env false _ rfl rfl rfl hsweeps
      (quiet_hourlyLabels env.now) (countP_hourlyLabels env.now)
    have hkept : sweepRest hourlyPass.cfg.retention env.now
        (retentionTargets hourlyPass.cfg.retention) 0 completedJob = completedJob := by
      apply Table.ext
      decide
    have hcounted := hpruned.counted (.completed, hour) List.mem_cons_self (by decide)
    rw [htable, show hourlyPass.table = completedJob from rfl, hkept] at hcounted
    revert hcounted
    decide
  · intro hall
    let step : Event := .within (.step (JobMachine.plainEnv 0 zeroTime "") false)
    let events := List.replicate 8 step ++
      .again (Table.empty jobs) hourlyPass.pool :: List.replicate 4 step
    have hstarts : sweepStarts hourlyPass events = [zeroTime, zeroTime] := by
      decide +kernel
    have hapart := hall _ hourlyPass events rfl
    rw [hstarts] at hapart
    revert hapart
    decide

end Conduit.RetentionSweep
