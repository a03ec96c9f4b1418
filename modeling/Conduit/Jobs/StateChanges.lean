import Conduit.Jobs.Tokens

/-!
# Changes of state

Nine statements write the state of a job, each under a condition of its own, and one of
them writes a state that was decided on an earlier read.  Together they follow one
diagram, in which a completed job has no way out.
-/

namespace Conduit.StateChanges

open Models Relational JobStore JobService JobWorker JobCalls JobMachine LeaseFencing Transition

/-- The states a row can be in.  Nothing writes `FAILED`. -/
def Known (state : JobState) : Prop :=
  state = .pending ∨ state = .running ∨ state = .completed ∨ state = .dead

/-- A table of jobs in known states that nobody is at work on. -/
def AtRest (table : JobTable) : Prop :=
  NoLease table ∧ ∀ row ∈ table.rows, Known row.state

/-- The diagram of states. -/
inductive Change (call : Call) : JobState → JobState → Prop
  | claim : Change call .pending .running
  | complete : Change call .running .completed
  | giveBack : Change call .running .pending
  | giveUp : Change call .running .dead
  | cancel : Change call .pending .dead
  | requeue (tenant id : String) (hcall : call = .requeueDeadJob tenant id) :
      Change call .dead .pending

/-- The call a step runs a statement of. -/
def runs (world : World) : Label → Option Call
  | .issue _ call => some call
  | .resume _ index => world.calls[index]?
  | .drop _ => none

/-! ## The invariant -/

/-- Jobs come to the insert without a state. -/
def CallState : Call → Prop
  | .enqueue job | .enqueueInsert job => job.state = .unset
  | _ => True

structure StateInv (world : World) : Prop where
  tokens : TokenInv world
  rows : ∀ row ∈ world.jobs.rows, Known row.state
  calls : ∀ call ∈ world.calls, CallState call

section Statement

variable {world : World} {env : Env} {call : Call} {statement : Statement} {row : Row}

/-- A call under way finds the rows its statement selects as the invariant says. -/
theorem StateInv.change_of_selects
    (hinv : StateInv { world with calls := call :: world.calls })
    (hrow : row ∈ world.jobs.rows)
    (hstatement : call.statement env world.jobs = some statement)
    (hselects : statement.Selects row) :
    (statement.set row).state = row.state ∨
      Change call row.state (statement.set row).state := by
  cases statement with
  | claimNextJob selected now expires leaseToken =>
      obtain ⟨filter, hclaimable⟩ := claimable_of_statement hstatement hrow hselects
      rw [hclaimable.1]
      exact .inr .claim
  | updateJob job updatedAt =>
      obtain ⟨rfl, -⟩ := statement_eq_updateJob hstatement
      obtain ⟨hpending, -, hrunning⟩ :=
        hinv.tokens.pending_of_kafkaWrite (List.mem_cons_self ..) hrow hselects
      rw [hpending]
      change _ ∨ Change _ _ job.state
      rw [hrunning]
      exact .inr .claim
  | renewLease id leaseToken expires dbNow => exact .inl rfl
  | releaseClaim id leaseToken reason nextRun dbNow =>
      rw [hselects.2.1]
      exact .inr .giveBack
  | completeClaimedJob id leaseToken metadata dbNow =>
      rw [hselects.2.1]
      exact .inr .complete
  | failClaimedJob id leaseToken errMsg nextRun dbNow =>
      rw [hselects.2.1]
      cases nextRun with
      | none => exact .inr .giveUp
      | some instant => exact .inr .giveBack
  | cancelJob tenant id dbNow =>
      rcases hselects.2.2 with hstate | hstate | hstate
      · rw [hstate]
        exact .inr .cancel
      · rw [hstate]
        exact .inr .giveUp
      · have hknown := hinv.rows row hrow
        simp [Known, hstate] at hknown
  | requeueExpiredRunning expired dbNow =>
      rw [running_of_statement hstatement hrow hselects]
      change _ ∨ Change _ _ (if row.taskMaxRetries ≤ row.attempt then _ else _)
      split
      · exact .inr .giveUp
      · exact .inr .giveBack
  | requeueDeadJob tenant id dbNow =>
      rw [hselects.2.1]
      exact .inr (.requeue tenant id (statement_eq_requeueDeadJob hstatement))

theorem Change.known {source target : JobState} (hchange : Change call source target) :
    Known target := by
  cases hchange <;> simp [Known]

theorem CallState.inserts {job : Job} (hcall : CallState call) (hinserts : call.Inserts job) :
    job.state = .unset := by
  rcases hinserts with rfl | ⟨requested, rfl, rfl, -⟩
  · exact hcall
  · exact (withTenant_state requested).trans hcall

/-- What one statement does to the state of a row. -/
theorem StateInv.change_of_perform
    (hinv : StateInv { world with calls := call :: world.calls })
    (hrow : row ∈ world.jobs.rows) {later : Row}
    (hlater : later ∈ (world.perform env call).jobs.rows) (hid : later.id = row.id) :
    later.state = row.state ∨ Change call row.state later.state := by
  change later ∈ (call.effect env world.jobs).table.rows at hlater
  have hdoes := effect_does env world.jobs call
  generalize (call.effect env world.jobs).table = after at hdoes hlater
  generalize (call.effect env world.jobs).events = events at hdoes
  have hsame : later ∈ world.jobs.rows → later.state = row.state := fun hmem =>
    congrArg Row.state (world.jobs.key_unique hmem hrow hid)
  cases hdoes with
  | nothing | found => exact .inl (hsame hlater)
  | updated statement hstatement =>
      obtain ⟨old, hold, rfl⟩ := Table.mem_exec.1 hlater
      by_cases hselects : statement.update.selects old
      · rw [if_pos hselects] at hid ⊢
        obtain rfl : old = row :=
          world.jobs.key_unique hold hrow ((statement.set_id old).symm.trans hid)
        exact hinv.change_of_selects hold hstatement hselects
      · rw [if_neg hselects] at hsame ⊢
        exact .inl (hsame hold)
  | inserted job after hinserts hcreated =>
      have hinsert := createJob_eq_ok hcreated
      rcases (Table.mem_insert hinsert).1 hlater with hmem | rfl
      · exact .inl (hsame hmem)
      · exact absurd hid.symm ((Table.insert_eq_ok hinsert).2.1 row hrow)
  | deleted ids hdelete => exact .inl (hsame (Table.mem_delete.1 hlater).1)

/-- A finished row is left alone by every statement but its deletion and, when it is
dead, its requeue. -/
theorem StateInv.kept_of_perform
    (hinv : StateInv { world with calls := call :: world.calls })
    (hrow : row ∈ world.jobs.rows)
    (hfinished : row.state = .completed ∨ row.state = .dead)
    (hrequeue : row.state = .dead → ∀ tenant, call = .requeueDeadJob tenant row.id →
      ¬ InTenant tenant row) :
    row ∈ (world.perform env call).jobs.rows ∨
      ∃ ids, call = .deleteExec ids ∧ row.id ∈ ids := by
  change row ∈ (call.effect env world.jobs).table.rows ∨ _
  have hdoes := effect_does env world.jobs call
  generalize (call.effect env world.jobs).table = after at hdoes ⊢
  generalize (call.effect env world.jobs).events = events at hdoes
  cases hdoes with
  | nothing | found => exact .inl hrow
  | updated statement hstatement =>
      refine .inl (Table.mem_exec.2 ⟨row, hrow, ?_⟩)
      apply if_neg
      intro hselects
      obtain ⟨hdead, tenant, hcall, htenant⟩ :=
        hinv.tokens.requeues_of_finished hrow hstatement hselects hfinished
      exact hrequeue hdead tenant hcall htenant
  | inserted job after hinserts hcreated =>
      exact .inl ((Table.mem_insert (createJob_eq_ok hcreated)).2 (.inl hrow))
  | deleted ids hdelete =>
      by_cases hmem : row.id ∈ ids
      · exact .inr ⟨ids, hdelete, hmem⟩
      · exact .inl (Table.mem_delete.2 ⟨hrow, by simpa using hmem⟩)

theorem StateInv.known_perform
    (hinv : StateInv { world with calls := call :: world.calls })
    (hrow : row ∈ (world.perform env call).jobs.rows) : Known row.state := by
  change row ∈ (call.effect env world.jobs).table.rows at hrow
  have hdoes := effect_does env world.jobs call
  generalize (call.effect env world.jobs).table = after at hdoes hrow
  generalize (call.effect env world.jobs).events = events at hdoes
  cases hdoes with
  | nothing | found => exact hinv.rows row hrow
  | updated statement hstatement =>
      obtain ⟨old, hold, rfl⟩ := Table.mem_exec.1 hrow
      by_cases hselects : statement.update.selects old
      · rw [if_pos hselects]
        rcases hinv.change_of_selects hold hstatement hselects with hsame | hchange
        · exact hsame ▸ hinv.rows old hold
        · exact hchange.known
      · rw [if_neg hselects]
        exact hinv.rows old hold
  | inserted job after hinserts hcreated =>
      rcases (Table.mem_insert (createJob_eq_ok hcreated)).1 hrow with hmem | rfl
      · exact hinv.rows row hmem
      · exact .inl (if_pos ((hinv.calls call (List.mem_cons_self ..)).inserts hinserts))
  | deleted ids hdelete => exact hinv.rows row (Table.mem_delete.1 hrow).1

theorem StateInv.perform (hinv : StateInv { world with calls := call :: world.calls })
    (hfresh : FreshToken world env call) : StateInv (world.perform env call) where
  tokens := hinv.tokens.perform hfresh
  rows _ hrow := hinv.known_perform hrow
  calls := forall_mem_calls_perform hinv.calls fun next hleads hcall => by
    cases hleads with
    | enqueueInsert job hkey => exact (withTenant_state job).trans hcall
    | _ => trivial

theorem StateInv.deleteExec (hinv : StateInv world) (env : Env) (ids : List String) :
    StateInv (world.perform env (.deleteExec ids)) := by
  refine StateInv.perform ?_ (freshToken_of_not_mints rfl)
  have htokens : TokenInv { world with calls := .deleteExec ids :: world.calls } :=
    ⟨hinv.tokens.rows, hinv.tokens.minted,
      List.forall_mem_cons.2 ⟨trivial, hinv.tokens.calls⟩, hinv.tokens.distinct⟩
  exact ⟨htokens, hinv.rows, List.forall_mem_cons.2 ⟨trivial, hinv.calls⟩⟩

end Statement

theorem StateInv.subperm {world : World} (hinv : StateInv world) {calls : List Call}
    (hcalls : calls.Subperm world.calls) : StateInv { world with calls } :=
  ⟨hinv.tokens.subperm hcalls, hinv.rows, fun call hcall =>
    hinv.calls call (hcalls.subset hcall)⟩

theorem StateInv.issue {world : World} (hinv : StateInv world) {env : Env} {call : Call}
    (hstarts : Starts world call) (hmay : TokenCalls world env call) :
    StateInv { world with calls := call :: world.calls } := by
  refine ⟨hinv.tokens.issue hstarts.initial (callToken_of_starts hstarts hmay), hinv.rows,
    List.forall_mem_cons.2 ⟨?_, hinv.calls⟩⟩
  have hinitial := hstarts.initial
  have hcaller := hmay.2
  cases call with
  | enqueue job => exact hcaller.state
  | enqueueInsert => cases hinitial
  | _ => trivial

/-- A call that starts and runs its first statement. -/
theorem StateInv.call {world : World} (hinv : StateInv world) {env : Env} {call : Call}
    (hstarts : Starts world call) (hmay : TokenCalls world env call) :
    StateInv (world.perform env call) :=
  (hinv.issue hstarts hmay).perform hmay.1

section Runs

variable {Start : JobTable → Prop} {May : World → Env → Call → Prop} {world : World}

/-- A permitted step runs the next statement of one call, or leaves the table alone. -/
theorem StateInv.runs_cases (hinv : StateInv world)
    (hmay : ∀ world env call, May world env call → TokenCalls world env call) {label : Label}
    (hallowed : (machine Start May).Allowed world label) :
    (runs world label = none ∧ (world.step label).jobs = world.jobs ∧
      StateInv (world.step label)) ∨
    ∃ (env : Env) (call : Call) (rest : World), runs world label = some call ∧
      rest.jobs = world.jobs ∧ rest.history = world.history ∧ FreshToken rest env call ∧
      StateInv { rest with calls := call :: rest.calls } ∧
      world.step label = rest.perform env call := by
  cases label with
  | issue env call =>
      have hcall := hmay world env call hallowed.2
      exact .inr ⟨env, call, world, rfl, rfl, rfl, hcall.1, hinv.issue hallowed.1 hcall, rfl⟩
  | resume env index =>
      rcases hcall : world.calls[index]? with _ | call
      · rw [World.step, hcall]
        exact .inl ⟨hcall, rfl, hinv⟩
      · obtain ⟨hindex, hget⟩ := List.getElem?_eq_some_iff.1 hcall
        have hperm : (call :: world.calls.eraseIdx index).Perm world.calls := by
          rw [← hget]
          exact List.getElem_cons_eraseIdx_perm hindex
        refine .inr ⟨env, call, { world with calls := world.calls.eraseIdx index }, hcall,
          rfl, rfl, (hmay _ env call (hallowed call hcall)).1, hinv.subperm hperm.subperm, ?_⟩
        rw [World.step, hcall]
  | drop index =>
      exact .inl ⟨rfl, rfl, hinv.subperm (List.eraseIdx_sublist ..).subperm⟩

theorem StateInv.step (hinv : StateInv world)
    (hmay : ∀ world env call, May world env call → TokenCalls world env call) {label : Label}
    (hallowed : (machine Start May).Allowed world label) : StateInv (world.step label) := by
  rcases hinv.runs_cases hmay hallowed with ⟨-, -, hstep⟩ | ⟨env, call, rest, -, -, -, hfresh,
    hrest, hstep⟩
  · exact hstep
  · rw [hstep]
    exact hrest.perform hfresh

theorem StateInv.init {table : JobTable} (htable : AtRest table) :
    StateInv ⟨table, [], [], [], []⟩ :=
  ⟨.init htable.1, htable.2, by simp⟩

theorem stateInv (hreach : (machine AtRest TokenCalls).Reachable world) : StateInv world := by
  refine invariant_of_perform StateInv hreach ?_ ?_ ?_ ?_
  · intro table htable
    exact .init htable
  · intro world calls hcalls hinv
    exact hinv.subperm hcalls
  · intro world env call hstarts hmay hinv
    exact hinv.issue hstarts hmay
  · intro world env call hmay hinv
    exact hinv.perform hmay.1

/-! ## Steps and runs -/

theorem StateInv.change_of_step (hinv : StateInv world) {label : Label}
    (hallowed : (machine AtRest TokenCalls).Allowed world label) {row later : Row}
    (hrow : row ∈ world.jobs.rows) (hlater : later ∈ (world.step label).jobs.rows)
    (hid : later.id = row.id) (hchanged : later.state ≠ row.state) :
    ∃ call, runs world label = some call ∧ Change call row.state later.state := by
  rcases hinv.runs_cases (fun _ _ _ hmay => hmay) hallowed with ⟨-, hjobs, -⟩ |
    ⟨env, call, rest, hruns, hjobs, -, -, hrest, hstep⟩
  · rw [hjobs] at hlater
    exact absurd (congrArg Row.state (world.jobs.key_unique hlater hrow hid)) hchanged
  · rw [hstep] at hlater
    have hchange := hrest.change_of_perform (hjobs ▸ hrow) hlater hid
    exact ⟨call, hruns, hchange.resolve_left hchanged⟩

theorem StateInv.completed_of_step (hinv : StateInv world) {label : Label}
    (hallowed : (machine AtRest TokenCalls).Allowed world label) {row : Row}
    (hrow : row ∈ world.jobs.rows) (hcompleted : row.state = .completed) :
    row ∈ (world.step label).jobs.rows ∨
      ∃ ids, runs world label = some (.deleteExec ids) ∧ row.id ∈ ids := by
  rcases hinv.runs_cases (fun _ _ _ hmay => hmay) hallowed with ⟨-, hjobs, -⟩ |
    ⟨env, call, rest, hruns, hjobs, -, -, hrest, hstep⟩
  · rw [hjobs]
    exact .inl hrow
  · rw [hstep]
    have hopen : row.state = .dead → ∀ tenant, call = .requeueDeadJob tenant row.id →
        ¬ InTenant tenant row := by
      simp [hcompleted]
    rcases hrest.kept_of_perform (hjobs ▸ hrow) (.inl hcompleted) hopen with
      hmem | ⟨ids, rfl, hmem⟩
    · exact .inl hmem
    · exact .inr ⟨ids, hruns, hmem⟩

/-- A completed row stays as it is until a run deletes it. -/
theorem completed_of_run (hreach : (machine AtRest TokenCalls).Reachable world)
    {labels : List Label} (hallowed : (machine AtRest TokenCalls).AllowedRun world labels)
    {row : Row} (hrow : row ∈ world.jobs.rows) (hcompleted : row.state = .completed) :
    row ∈ ((machine AtRest TokenCalls).run world labels).jobs.rows ∨
      ∃ before label after ids, labels = before ++ label :: after ∧
        runs ((machine AtRest TokenCalls).run world before) label = some (.deleteExec ids) ∧
        row.id ∈ ids ∧ row ∈ ((machine AtRest TokenCalls).run world before).jobs.rows := by
  induction labels generalizing world with
  | nil => exact .inl hrow
  | cons label labels ih =>
      have hinv := stateInv hreach
      rcases hinv.completed_of_step hallowed.1 hrow hcompleted with hkept | ⟨ids, hruns, hmem⟩
      · rcases ih (.next label hreach hallowed.1) hallowed.2 hkept with hend |
          ⟨before, deletion, after, ids, rfl, hdeletes⟩
        · exact .inl hend
        · exact .inr ⟨label :: before, deletion, after, ids, rfl, hdeletes⟩
      · exact .inr ⟨[], label, labels, ids, rfl, hruns, hmem, hrow⟩

/-- In every run of the job-table operations the states follow the diagram, and a row
that is completed stays exactly as it is until `DeleteFinished` removes it. -/
theorem changes_legal (hreach : (machine AtRest TokenCalls).Reachable world) :
    (∀ label, (machine AtRest TokenCalls).Allowed world label →
      ∀ row ∈ world.jobs.rows, ∀ later ∈ (world.step label).jobs.rows,
        later.id = row.id → later.state ≠ row.state →
          ∃ call, runs world label = some call ∧ Change call row.state later.state) ∧
    ∀ row ∈ world.jobs.rows, row.state = .completed →
      ∀ labels, (machine AtRest TokenCalls).AllowedRun world labels →
        row ∈ ((machine AtRest TokenCalls).run world labels).jobs.rows ∨
          ∃ before label after ids, labels = before ++ label :: after ∧
            runs ((machine AtRest TokenCalls).run world before) label =
              some (.deleteExec ids) ∧
            row.id ∈ ids ∧
            row ∈ ((machine AtRest TokenCalls).run world before).jobs.rows := by
  have hinv := stateInv hreach
  constructor
  · intro label hallowed row hrow later hlater hid hchanged
    exact hinv.change_of_step hallowed hrow hlater hid hchanged
  · intro row hrow hcompleted labels hallowed
    exact completed_of_run hreach hallowed hrow hcompleted

end Runs

theorem atRest_empty : AtRest (Table.empty jobs) :=
  ⟨fun row hrow => (by cases hrow), fun row hrow => (by cases hrow)⟩

/-- The worker that claimed the job completes it. -/
def completion : Label :=
  .issue (plainEnv 1 minute "")
    (.completeClaimedJob "job-1" (newLeaseToken fun _ => 1) none)

theorem changes_legal_completion :
    (((machine AtRest TokenCalls).run emptyWorld claimedRun).step
        completion).jobs.rows.map Row.state = [.completed] ∧
      ∀ row ∈ (((machine AtRest TokenCalls).run emptyWorld claimedRun).step
          completion).jobs.rows, row.state = .completed →
        row ∈ ((((machine AtRest TokenCalls).run emptyWorld claimedRun).step
          completion).step (.issue (plainEnv 1 minute "")
            (.cancelJob "default" "job-1"))).jobs.rows := by
  have hstart : (machine AtRest TokenCalls).Reachable emptyWorld :=
    .start ⟨atRest_empty, rfl, rfl, rfl, rfl⟩
  have hclaimed := hstart.run (allowedRun_claimedRun
    ⟨freshToken_claimedRun.1, fromCaller_plainJob⟩ ⟨freshToken_claimedRun.2, trivial⟩)
  have hcompleted := hclaimed.next completion
    ⟨.of_not_mints rfl rfl, freshToken_of_not_mints rfl, trivial⟩
  constructor
  · decide +kernel
  · intro row hrow hstate
    have hkept := (changes_legal hcompleted).2 row hrow hstate
      [.issue (plainEnv 1 minute "") (.cancelJob "default" "job-1")]
      ⟨⟨.of_not_mints rfl rfl, freshToken_of_not_mints rfl, trivial⟩, trivial⟩
    rcases hkept with hmem | ⟨before, label, after, ids, hsplit, hruns, -⟩
    · exact hmem
    · cases before with
      | nil =>
          cases hsplit
          cases hruns
      | cons head tail => simp at hsplit

end Conduit.StateChanges
