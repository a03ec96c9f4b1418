import Conduit.Reconciler.Reconcile

/-!
# Claims the pool refuses

`SubmitBlocking` refuses a job for one reason only: the context of the pass is
cancelled.  `ReleaseClaim` then runs under that same context, so it fails, and the
row stays `RUNNING` with the attempt it was charged for.
-/

namespace Conduit.Reconciler

open Models Transition Relational JobStore JobService WorkerPool
open JobMachine (plainEnv plainJob)

variable {pass after : Pass} {env : Env} {prefersSend : Bool}

/-! ## What a step does with the claims of the pass -/

/-- The pass has no submission to make or to undo. -/
def Stage.Free : Stage → Prop
  | .offer _ | .submit .. | .release _ | .returned => False
  | _ => True

/-- The `select` of `SubmitBlocking` accepts. -/
def Admits (pass : Pass) (prefersSend : Bool) : Prop :=
  pass.cancelled = false ∨ (pass.pool.sendReady = true ∧ prefersSend = true)

inductive Advances (pass : Pass) (prefersSend : Bool) : Pass → Prop
  | elsewhere (table : JobTable) (stage : Stage) (hadWork : Bool) (lastSweep : Option ℤ)
      (hfree : pass.stage.Free) (hstage : stage.Free ∨ stage = .returned) :
      Advances pass prefersSend { pass with table, stage, hadWork, lastSweep }
  | claims (table : JobTable) (job : Job) (row : Row) (hfree : pass.stage.Free)
      (hrow : row ∈ table.rows) (hid : row.id = job.id) (hrunning : row.state = .running) :
      Advances pass prefersSend { pass with
        table, stage := .offer job, claims := ⟨pass.table, job⟩ :: pass.claims }
  | offers (job : Job) (hstage : pass.stage = .offer job) :
      Advances pass prefersSend { pass with stage := .submit job pass.cancelled }
  | waits (job : Job) (hstage : pass.stage = .submit job false)
      (hopen : pass.cancelled = false) : Advances pass prefersSend pass
  | accepted (job : Job) (pool : Pool Job) (hstage : pass.stage = .submit job false)
      (hadmits : Admits pass prefersSend) :
      Advances pass prefersSend { pass with
        pool, stage := .loop, claimed := pass.claimed + 1, accepted := job :: pass.accepted }
  | refused (job : Job) (pool : Pool Job) (entryDone : Bool)
      (hstage : pass.stage = .submit job entryDone)
      (hdone : entryDone = true ∨ ¬ Admits pass prefersSend) :
      Advances pass prefersSend { pass with
        pool, stage := .release job, refused := job :: pass.refused }
  | released (job : Job) (table : JobTable) (hstage : pass.stage = .release job)
      (htable : pass.cancelled = true → table = pass.table) :
      Advances pass prefersSend { pass with stage := .returned, hadWork := true, table }
  | ended (hstage : pass.stage = .returned) : Advances pass prefersSend pass

theorem advances_reap (hstage : pass.stage = .reap) :
    Advances pass prefersSend (pass.reap env) := by
  have hfree : pass.stage.Free := by
    rw [hstage]
    trivial
  rw [Pass.reap]
  split
  · exact .elsewhere pass.table .loop true pass.lastSweep hfree (.inl trivial)
  · exact .elsewhere _ .loop _ pass.lastSweep hfree (.inl trivial)

theorem advances_claim (hfree : pass.stage.Free) :
    Advances pass prefersSend (pass.claim env) := by
  rw [Pass.claim]
  split
  · exact .elsewhere pass.table .returned true pass.lastSweep hfree (.inr rfl)
  · dsimp only
    split
    case h_1 job hok =>
      obtain ⟨row, hrow, hselects, rfl, hmem⟩ := exists_row_of_execReturning hok
      exact .claims _ _ _ hfree hmem rfl rfl
    case h_2 => exact .elsewhere pass.table .housekeep _ pass.lastSweep hfree (.inl trivial)
    case h_3 => exact .elsewhere pass.table .returned true pass.lastSweep hfree (.inr rfl)

theorem sends_eq_true_iff {entryDone : Bool} :
    pass.pool.sends ⟨entryDone, pass.cancelled, prefersSend⟩ = true ↔
      pass.pool.sendReady = true ∧ (pass.cancelled = false ∨ prefersSend = true) := by
  rw [Pool.sends, decide_eq_true_iff]

theorem advances_submit {job : Job} {entryDone : Bool}
    (hstage : pass.stage = .submit job entryDone) :
    Advances pass prefersSend (pass.submit job entryDone prefersSend) := by
  rw [Pass.submit, Pool.submitBlocking]
  cases entryDone with
  | true => exact .refused job pass.pool true hstage (.inl rfl)
  | false =>
      by_cases hsends : pass.pool.sends ⟨false, pass.cancelled, prefersSend⟩ = true
      · rw [if_neg Bool.false_ne_true, if_pos hsends]
        obtain ⟨hready, hselect⟩ := sends_eq_true_iff.mp hsends
        exact .accepted job _ hstage (hselect.imp_right fun hprefers => ⟨hready, hprefers⟩)
      · rw [if_neg Bool.false_ne_true, if_neg hsends]
        rw [sends_eq_true_iff] at hsends
        by_cases hcancelled : pass.cancelled = true
        · rw [if_pos (by exact hcancelled)]
          refine .refused job pass.pool false hstage (.inr ?_)
          rintro (hopen | ⟨hready, hprefers⟩)
          · exact absurd hcancelled (Bool.eq_false_iff.mp hopen)
          · exact hsends ⟨hready, .inr hprefers⟩
        · rw [if_neg (by exact hcancelled)]
          exact .waits job hstage (Bool.eq_false_iff.mpr hcancelled)

theorem advances_sweep {left : Sweep} (hfree : pass.stage.Free) :
    Advances pass prefersSend (pass.sweep left) := by
  refine .elsewhere pass.table _ pass.hadWork pass.lastSweep hfree ?_
  split
  · exact .inr rfl
  · split
    · exact .inl trivial
    · split
      · exact .inr rfl
      · exact .inl trivial

theorem advances_deleteSelect {left : Sweep} (hfree : pass.stage.Free) :
    Advances pass prefersSend (pass.deleteSelect left) := by
  refine .elsewhere pass.table _ pass.hadWork pass.lastSweep hfree ?_
  split
  · exact .inr rfl
  · split
    · exact .inl trivial
    · split <;> exact .inl trivial

theorem advances_housekeep (hfree : pass.stage.Free) :
    Advances pass prefersSend (pass.housekeep env) := by
  rw [Pass.housekeep]
  split
  · exact .elsewhere pass.table .returned pass.hadWork pass.lastSweep hfree (.inr rfl)
  · split
    · exact .elsewhere pass.table .returned pass.hadWork pass.lastSweep hfree (.inr rfl)
    · exact .elsewhere pass.table _ pass.hadWork _ hfree (.inl trivial)

theorem advances_advance : Advances pass prefersSend (pass.advance env prefersSend) := by
  rw [Pass.advance]
  have hfree : ∀ stage, pass.stage = stage → stage.Free → pass.stage.Free := by
    intro stage hstage hfree
    rwa [hstage]
  split
  case h_1 hstage => exact advances_reap hstage
  case h_2 hstage =>
    rw [Pass.loop]
    split
    · refine .elsewhere pass.table _ pass.hadWork pass.lastSweep (hfree _ hstage trivial) ?_
      split
      · exact .inr rfl
      · exact .inl trivial
    · exact .elsewhere pass.table _ _ pass.lastSweep (hfree _ hstage trivial) (.inl trivial)
  case h_3 hstage => exact advances_claim (hfree _ hstage trivial)
  case h_4 job hstage => exact .offers job hstage
  case h_5 job entryDone hstage => exact advances_submit hstage
  case h_6 job hstage => exact .released job _ hstage fun hcancelled => if_pos hcancelled
  case h_7 hstage => exact advances_housekeep (hfree _ hstage trivial)
  case h_8 left hstage => exact advances_sweep (hfree _ hstage trivial)
  case h_9 left hstage => exact advances_deleteSelect (hfree _ hstage trivial)
  case h_10 left ids hstage =>
    refine .elsewhere _ _ pass.hadWork pass.lastSweep (hfree _ hstage trivial) (.inl ?_)
    split <;> trivial
  case h_11 hstage => exact .ended hstage

/-! ## When a submission is refused -/

/-- No submission was refused, and the one under way may still be accepted. -/
def Unrefused (pass : Pass) : Prop :=
  pass.refused = [] ∧ ∀ job, pass.stage ≠ .submit job true

/-- The context is not cancelled while a claimed job waits for the pool, or the pool
has room for the job and the `select` prefers to send it. -/
def Uninterrupted (pass : Pass) : Label → Prop
  | .step _ prefersSend =>
      match pass.stage with
      | .offer _ => pass.cancelled = false
      | .submit .. => Admits pass prefersSend
      | _ => True
  | _ => True

theorem Stage.Free.ne_submit {stage : Stage} (hfree : stage.Free) (job : Job)
    (entryDone : Bool) : stage ≠ .submit job entryDone := by
  rintro rfl
  exact hfree

theorem uninterrupted_of_free (hfree : pass.stage.Free) :
    Uninterrupted pass (.step env prefersSend) := by
  rw [Uninterrupted]
  split
  case h_1 job hstage =>
    rw [hstage] at hfree
    exact hfree.elim
  case h_2 job entryDone hstage => exact absurd hstage (hfree.ne_submit job entryDone)
  case h_3 => trivial

theorem unrefused_of_advances (hadvances : Advances pass prefersSend after) :
    Unrefused after ↔ Unrefused pass ∧ Uninterrupted pass (.step env prefersSend) := by
  cases hadvances with
  | elsewhere table stage hadWork lastSweep hfree hstage =>
      have hafter : ∀ job, stage ≠ .submit job true := by
        rintro job rfl
        rcases hstage with hfree | hreturned
        · exact hfree
        · cases hreturned
      rw [and_iff_left (uninterrupted_of_free hfree)]
      exact and_congr_right fun _ => iff_of_true hafter fun job => hfree.ne_submit job true
  | claims table job row hfree =>
      rw [and_iff_left (uninterrupted_of_free hfree)]
      have hafter : ∀ other, Stage.offer job ≠ .submit other true := by
        intro other hstage
        cases hstage
      exact and_congr_right fun _ => iff_of_true hafter fun job => hfree.ne_submit job true
  | offers job hstage =>
      simp only [Unrefused, Uninterrupted, hstage]
      simp
  | waits job hstage hopen =>
      simp only [Unrefused, Uninterrupted, hstage, Admits, hopen]
      simp
  | accepted job pool hstage hadmits =>
      simp only [Unrefused, Uninterrupted, hstage, hadmits]
      simp
  | refused job pool entryDone hstage hdone =>
      simp only [Unrefused, Uninterrupted, hstage]
      grind
  | released job table hstage =>
      simp only [Unrefused, Uninterrupted, hstage]
      simp
  | ended hstage =>
      simp only [Unrefused, Uninterrupted, hstage]
      simp

theorem unrefused_step_iff (label : Label) :
    Unrefused (pass.step label) ↔ Unrefused pass ∧ Uninterrupted pass label := by
  cases label with
  | cancel | others _ | pool _ => exact (and_iff_left trivial).symm
  | step env prefersSend => exact unrefused_of_advances advances_advance

theorem cancelled_of_advances (hadvances : Advances pass prefersSend after) :
    after.cancelled = pass.cancelled := by
  cases hadvances <;> rfl

/-- A pass whose context is never cancelled is never interrupted. -/
theorem uninterrupted_run {labels : List Label} (hopen : pass.cancelled = false)
    (hcancel : ∀ label ∈ labels, label ≠ .cancel) (hallowed : machine.AllowedRun pass labels) :
    (machine.restrict Uninterrupted).AllowedRun pass labels := by
  apply Machine.AllowedRun.restrict (fun pass => pass.cancelled = false) _ hallowed hopen
    hcancel
  intro before label hopen hcancel
  cases label with
  | cancel => exact absurd rfl hcancel
  | others _ | pool _ => exact ⟨trivial, hopen⟩
  | step env prefersSend =>
      refine ⟨?_, (cancelled_of_advances advances_advance).trans hopen⟩
      rw [Uninterrupted]
      split
      · exact hopen
      · exact .inl hopen
      · trivial

/-! ## The row of a refused job -/

/-- A claimed job is accepted, in hand or refused.  One that is not accepted is still
`RUNNING`, and a refusal means that the context is cancelled. -/
structure PassInv (pass : Pass) : Prop where
  claims : pass.claims.map Claim.job = pass.unaccepted ++ pass.accepted
  rows : ∀ job ∈ pass.unaccepted, ∃ row ∈ pass.table.rows,
    row.id = job.id ∧ row.state = .running
  refused : pass.refused ≠ [] → pass.cancelled = true ∧
    (pass.stage = .returned ∨ ∃ job, pass.stage = .release job)
  entry : ∀ job, pass.stage = .submit job true → pass.cancelled = true

/-- The stages a pass with a refused job can be in. -/
def Stage.Ends (stage : Stage) : Prop :=
  stage = .returned ∨ ∃ job, stage = .release job

theorem Stage.Free.not_ends {stage : Stage} (hfree : stage.Free) : ¬ stage.Ends := by
  rintro (rfl | ⟨job, rfl⟩)
  · exact hfree
  · exact hfree

theorem PassInv.refused_eq_nil (hinv : PassInv pass) (hstage : ¬ pass.stage.Ends) :
    pass.refused = [] := by
  by_contra hrefused
  exact hstage (hinv.refused hrefused).2

theorem Stage.Free.inHand_eq_nil {stage : Stage} (hfree : stage.Free) : stage.inHand = [] := by
  cases stage <;> first | rfl | exact hfree.elim

theorem PassInv.claims_of_free (hinv : PassInv pass) (hfree : pass.stage.Free) :
    pass.claims.map Claim.job = pass.accepted := by
  rw [hinv.claims, Pass.unaccepted, hfree.inHand_eq_nil, hinv.refused_eq_nil hfree.not_ends]
  rfl

/-- A pass that has `job` in hand owes it an answer and nothing else. -/
theorem PassInv.of_inHand (hinv : PassInv pass) {job : Job}
    (hinHand : pass.stage.inHand = [job]) :
    pass.refused = [] ∧ pass.claims.map Claim.job = job :: pass.accepted ∧
      ∃ row ∈ pass.table.rows, row.id = job.id ∧ row.state = .running := by
  have hends : ¬ pass.stage.Ends := by
    rintro (hstage | ⟨other, hstage⟩) <;> rw [hstage] at hinHand <;> cases hinHand
  have hrefused := hinv.refused_eq_nil hends
  have hunaccepted : pass.unaccepted = [job] := by
    rw [Pass.unaccepted, hinHand, hrefused, List.append_nil]
  refine ⟨hrefused, ?_, ?_⟩
  · rw [hinv.claims, hunaccepted]
    rfl
  · apply hinv.rows
    rw [hunaccepted]
    exact List.mem_singleton_self job

/-- What is left to show for a pass without a refusal. -/
theorem PassInv.of_refused_eq_nil (hrefused : pass.refused = [])
    (hclaims : pass.claims.map Claim.job = pass.stage.inHand ++ pass.accepted)
    (hrows : ∀ job ∈ pass.stage.inHand, ∃ row ∈ pass.table.rows,
      row.id = job.id ∧ row.state = .running)
    (hentry : ∀ job, pass.stage = .submit job true → pass.cancelled = true) :
    PassInv pass := by
  have hunaccepted : pass.unaccepted = pass.stage.inHand := by
    rw [Pass.unaccepted, hrefused, List.append_nil]
  refine ⟨?_, ?_, fun hne => absurd hrefused hne, hentry⟩
  · rw [hunaccepted]
    exact hclaims
  · rw [hunaccepted]
    exact hrows

/-- The refusal of the job in hand. -/
theorem PassInv.refuse (hinv : PassInv pass) {job : Job} (pool : Pool Job)
    (hinHand : pass.stage.inHand = [job]) (hcancelled : pass.cancelled = true) :
    PassInv { pass with pool, stage := .release job, refused := job :: pass.refused } := by
  obtain ⟨hrefused, hclaims, hrow⟩ := hinv.of_inHand hinHand
  constructor
  · change pass.claims.map Claim.job = job :: pass.refused ++ pass.accepted
    rw [hrefused]
    exact hclaims
  · intro other hother
    change other ∈ job :: pass.refused at hother
    rw [hrefused, List.mem_singleton] at hother
    rw [hother]
    exact hrow
  · intro hne
    exact ⟨hcancelled, .inr ⟨job, rfl⟩⟩
  · intro other hsubmit
    cases hsubmit

/-- `ReleaseClaim` after a refusal: under a cancelled context it writes nothing. -/
theorem PassInv.release (hinv : PassInv pass) {job : Job} {table : JobTable}
    (hstage : pass.stage = .release job)
    (htable : pass.cancelled = true → table = pass.table) :
    PassInv { pass with stage := .returned, hadWork := true, table } := by
  have hunaccepted : pass.unaccepted = pass.refused := by
    rw [Pass.unaccepted, hstage]
    rfl
  constructor
  · change pass.claims.map Claim.job = pass.refused ++ pass.accepted
    rw [← hunaccepted]
    exact hinv.claims
  · intro other hother
    change other ∈ pass.refused at hother
    have hcancelled := (hinv.refused (List.ne_nil_of_mem hother)).1
    rw [← hunaccepted] at hother
    rw [htable hcancelled]
    exact hinv.rows other hother
  · intro hne
    exact ⟨(hinv.refused hne).1, .inl rfl⟩
  · intro other hsubmit
    cases hsubmit

theorem PassInv.advances (hinv : PassInv pass) (hadvances : Advances pass prefersSend after) :
    PassInv after := by
  cases hadvances with
  | elsewhere table stage hadWork lastSweep hfree hstage =>
      have hinHand : stage.inHand = [] := by
        rcases hstage with hstage | rfl
        · exact hstage.inHand_eq_nil
        · rfl
      refine .of_refused_eq_nil (hinv.refused_eq_nil hfree.not_ends) ?_ ?_ ?_
      · change pass.claims.map Claim.job = stage.inHand ++ pass.accepted
        rw [hinHand, hinv.claims_of_free hfree]
        rfl
      · intro job hjob
        rw [hinHand] at hjob
        cases hjob
      · rintro job rfl
        cases hinHand
  | claims table job row hfree hrow hid hrunning =>
      refine .of_refused_eq_nil (hinv.refused_eq_nil hfree.not_ends) ?_ ?_ ?_
      · exact congrArg (job :: ·) (hinv.claims_of_free hfree)
      · exact List.forall_mem_singleton.2 ⟨row, hrow, hid, hrunning⟩
      · intro other hstage
        cases hstage
  | offers job hstage =>
      obtain ⟨hrefused, hclaims, hrow⟩ := hinv.of_inHand (congrArg Stage.inHand hstage)
      refine .of_refused_eq_nil hrefused hclaims (List.forall_mem_singleton.2 hrow) ?_
      intro other hsubmit
      exact (Stage.submit.inj hsubmit).2
  | waits job hstage hopen => exact hinv
  | accepted job pool hstage hadmits =>
      obtain ⟨hrefused, hclaims, hrow⟩ := hinv.of_inHand (congrArg Stage.inHand hstage)
      refine .of_refused_eq_nil hrefused hclaims ?_ ?_
      · exact List.forall_mem_nil _
      · intro other hsubmit
        cases hsubmit
  | refused job pool entryDone hstage hdone =>
      apply hinv.refuse pool (congrArg Stage.inHand hstage)
      rcases hdone with rfl | hnot
      · exact hinv.entry job hstage
      · exact Bool.eq_true_of_not_eq_false fun hopen => hnot (.inl hopen)
  | released job table hstage htable => exact hinv.release hstage htable
  | ended hstage => exact hinv

theorem PassInv.step {label : Label} (hinv : PassInv pass) (hallowed : pass.Allowed label) :
    PassInv (pass.step label) := by
  cases label with
  | cancel =>
      exact ⟨hinv.claims, hinv.rows, fun hne => ⟨rfl, (hinv.refused hne).2⟩, fun _ _ => rfl⟩
  | others table =>
      refine ⟨hinv.claims, ?_, hinv.refused, hinv.entry⟩
      intro job hjob
      obtain ⟨row, hrow, hid, hrunning⟩ := hinv.rows job hjob
      have hmem : row.id ∈ pass.unaccepted.map Job.id := by
        rw [hid]
        exact List.mem_map_of_mem hjob
      exact ⟨row, hallowed.2 row hrow hmem, hid, hrunning⟩
  | pool label => exact { hinv with }
  | step env prefersSend => exact hinv.advances advances_advance

theorem passInv (hreach : machine.Reachable pass) : PassInv pass := by
  apply hreach.invariant PassInv
  · rintro pass ⟨-, -, -, hstage, -, -, hclaims, haccepted, hrefused⟩
    apply PassInv.of_refused_eq_nil hrefused
    · rw [hclaims, hstage, haccepted]
      rfl
    · rw [hstage]
      exact List.forall_mem_nil _
    · intro job hsubmit
      rw [hstage] at hsubmit
      cases hsubmit
  · intro pass label hreach hallowed hinv
    exact hinv.step hallowed

/-! ## The claims of a pass when it returns -/

/-- The job is as it was before the claim, to be claimed again later. -/
def Back (table : JobTable) (claim : Claim) : Prop :=
  ∃ row ∈ table.rows, row.id = claim.job.id ∧ row.state = .pending ∧
    row.leaseToken = none ∧ row.leaseExpiresAt = none ∧
    ∃ old ∈ claim.before.rows, old.id = row.id ∧ row.attempt = old.attempt ∧
      ∃ scheduledAt ∈ row.scheduledAt, ∀ earlier ∈ old.scheduledAt, earlier < scheduledAt

/-- Each claim of the pass was accepted by the pool exactly once, but for some that
went back. -/
def Settled (pass : Pass) : Prop :=
  ∃ back : List Claim, back ⊆ pass.claims ∧ (∀ claim ∈ back, Back pass.table claim) ∧
    (pass.claims.map Claim.job).Perm (pass.accepted ++ back.map Claim.job)

theorem not_back {claim : Claim} {table : JobTable}
    (hrow : ∃ row ∈ table.rows, row.id = claim.job.id ∧ row.state = .running) :
    ¬ Back table claim := by
  rintro ⟨pending, hpending, hid, hstate, -⟩
  obtain ⟨row, hrow, hrowID, hrunning⟩ := hrow
  rw [table.key_unique hpending hrow (hid.trans hrowID.symm), hrunning] at hstate
  cases hstate

theorem settled_iff (hinv : PassInv pass) (hreturned : pass.stage = .returned) :
    Settled pass ↔ pass.refused = [] := by
  have hunaccepted : pass.unaccepted = pass.refused := by
    rw [Pass.unaccepted, hreturned]
    rfl
  have hclaims := hinv.claims
  have hrows := hinv.rows
  rw [hunaccepted] at hclaims hrows
  constructor
  · rintro ⟨back, hsubset, hback, hperm⟩
    rw [hclaims] at hperm
    have hrefused : pass.refused.Perm (back.map Claim.job) :=
      (List.perm_append_left_iff pass.accepted).mp (List.perm_append_comm.trans hperm)
    have hnone : back = [] := by
      rw [List.eq_nil_iff_forall_not_mem]
      intro claim hclaim
      have hjob : claim.job ∈ pass.refused := hrefused.mem_iff.mpr (List.mem_map_of_mem hclaim)
      exact not_back (hrows claim.job hjob) (hback claim hclaim)
    rw [hnone, List.map_nil] at hrefused
    exact hrefused.eq_nil
  · intro hrefused
    have hperm : (pass.claims.map Claim.job).Perm (pass.accepted ++ []) := by
      rw [hclaims, hrefused, List.append_nil]
      exact List.Perm.refl _
    exact ⟨[], List.nil_subset _, fun claim hclaim => absurd hclaim List.not_mem_nil, hperm⟩

/-- A pass that returns has settled its claims exactly when no claimed job met the
cancelled context on its way to the pool, so that there was nothing to give back. -/
theorem settled_iff_uninterrupted {labels : List Label} (hbegins : Begins pass)
    (hallowed : machine.AllowedRun pass labels)
    (hreturned : (machine.run pass labels).stage = .returned) :
    Settled (machine.run pass labels) ↔
      (machine.restrict Uninterrupted).AllowedRun pass labels := by
  have hreach : machine.Reachable (machine.run pass labels) :=
    Machine.Reachable.run (.start hbegins) hallowed
  have hunrefused := Machine.run_iff_restrict Unrefused
    (fun before label _ => unrefused_step_iff label) hallowed
  obtain ⟨-, -, -, hstage, -, -, -, -, hnone⟩ := hbegins
  have hstart : Unrefused pass := by
    refine ⟨hnone, ?_⟩
    intro job hsubmit
    rw [hstage] at hsubmit
    cases hsubmit
  have hend : Unrefused (machine.run pass labels) ↔ (machine.run pass labels).refused = [] := by
    rw [Unrefused, and_iff_left]
    intro job hsubmit
    rw [hreturned] at hsubmit
    cases hsubmit
  rw [settled_iff (passInv hreach) hreturned, ← hend, hunrefused]
  exact and_iff_right hstart

/-- A job that may run once, and no other. -/
def singleTable : JobTable where
  rows := [createRow 0 { plainJob with
    id := "job-1", state := .pending, task := { plainJob.task with maxRetries := 1 } }]
  keyed := List.pairwise_singleton ..
  indexed := List.pairwise_singleton ..

/-- A pass over that table, with a pool of one worker and no retention. -/
def singlePass : Pass where
  cfg := new ⟨second, 10, 0, [], ⟨0, 0, 0, 0⟩⟩
  table := singleTable
  pool := newPool ⟨1, 1⟩
  cancelled := false
  stage := .reap
  hadWork := false
  claimed := 0
  lastSweep := none
  claims := []
  accepted := []
  refused := []

theorem begins_singlePass : Begins singlePass :=
  ⟨⟨_, rfl⟩, .start ⟨⟨1, 1⟩, le_refl 1, rfl⟩, rfl, rfl, rfl, rfl, rfl, rfl, rfl⟩

def tick : Label := .step (plainEnv 1 minute "") true

/-- The context is cancelled right after the claim. -/
def cancelledPass : List Label :=
  [tick, tick, tick, .cancel, tick, tick, tick]

/-- The job is accepted, and the next claim finds none. -/
def acceptedPass : List Label :=
  [tick, tick, tick, tick, tick, tick, tick, tick]

theorem settled_acceptedPass : Settled (machine.run singlePass acceptedPass) := by
  have hallowed : machine.AllowedRun singlePass acceptedPass :=
    ⟨trivial, trivial, trivial, trivial, trivial, trivial, trivial, trivial, trivial⟩
  have hreturned : (machine.run singlePass acceptedPass).stage = .returned := by decide +kernel
  have hcancel : ∀ label ∈ acceptedPass, label ≠ .cancel := by
    simp [acceptedPass, tick]
  exact (settled_iff_uninterrupted begins_singlePass hallowed hreturned).mpr
    (uninterrupted_run rfl hcancel hallowed)

theorem not_forall_settled :
    ¬ ∀ (pass : Pass) (labels : List Label), Begins pass → machine.AllowedRun pass labels →
      (machine.run pass labels).stage = .returned → Settled (machine.run pass labels) := by
  intro hforall
  have hallowed : machine.AllowedRun singlePass cancelledPass :=
    ⟨trivial, trivial, trivial, trivial, trivial, trivial, trivial, trivial⟩
  have hreturned : (machine.run singlePass cancelledPass).stage = .returned := by
    decide +kernel
  have hreach : machine.Reachable (machine.run singlePass cancelledPass) :=
    Machine.Reachable.run (.start begins_singlePass) hallowed
  have hsettled := hforall singlePass cancelledPass begins_singlePass hallowed hreturned
  have hrefused : (machine.run singlePass cancelledPass).refused ≠ [] := by decide +kernel
  exact hrefused ((settled_iff (passInv hreach) hreturned).mp hsettled)

end Conduit.Reconciler
