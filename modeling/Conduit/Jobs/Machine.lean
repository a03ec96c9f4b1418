import Mathlib.Data.List.Perm.Subperm
import Conduit.Core.Transition
import Conduit.Jobs.Calls

/-!
# Concurrent callers of the job table

Any number of callers work on one `jobs` table.  Between two statements of a
call any other call may run, and a call may stop for good.  The world keeps the
table, the calls that have statements left, the messages Kafka may deliver any
number of times, and two records the program does not have: the tokens minted
so far and the history of events, newest first.
-/

namespace Conduit.JobMachine

open Models Relational JobStore JobService JobWorker JobCalls Transition

structure World where
  jobs : JobTable
  calls : List Call
  messages : List Job
  minted : List String
  history : List Event

inductive Label
  /-- A caller makes a call, which runs its first statement. -/
  | issue (env : Env) (call : Call)
  /-- A call runs its next statement. -/
  | resume (env : Env) (index : ℕ)
  /-- A call stops between two statements. -/
  | drop (index : ℕ)

namespace World

/-- Take over the effect of a statement, apart from what its call does next. -/
def absorb (world : World) (effect : Effect) : World where
  jobs := effect.table
  calls := world.calls
  messages := effect.published.toList ++ world.messages
  minted := effect.minted.toList ++ world.minted
  history := effect.events ++ world.history

/-- Run the next statement of a call. -/
def perform (world : World) (env : Env) (call : Call) : World :=
  let effect := call.effect env world.jobs
  { world.absorb effect with calls := effect.next.toList ++ world.calls }

def step (world : World) : Label → World
  | .issue env call => world.perform env call
  | .resume env index =>
      match world.calls[index]? with
      | none => world
      | some call => { world with calls := world.calls.eraseIdx index }.perform env call
  | .drop index => { world with calls := world.calls.eraseIdx index }

end World

/-- What a caller may start: a call from its beginning, on the Kafka path with a
published message. -/
structure Starts (world : World) (call : Call) : Prop where
  initial : call.continues = false
  published : ∀ message lease, call = .kafkaClaim message lease →
    message ∈ world.messages

/-- Minted tokens never repeat. -/
def FreshToken (world : World) (env : Env) (call : Call) : Prop :=
  call.mints = true → newLeaseToken env.random ∉ world.minted

theorem Starts.of_not_mints {world : World} {call : Call}
    (hinitial : call.continues = false) (hmints : call.mints = false) : Starts world call := by
  refine ⟨hinitial, ?_⟩
  rintro message lease rfl
  cases hmints

theorem freshToken_of_not_mints {world : World} {env : Env} {call : Call}
    (hmints : call.mints = false) : FreshToken world env call := by
  intro hminted
  rw [hmints] at hminted
  cases hminted

/-- The machine that starts from a table satisfying `Start` with no call under
way.  `May` is what the environment promises about a call each time it runs a
statement, told by the world without that call. -/
def machine (Start : JobTable → Prop) (May : World → Env → Call → Prop) :
    Machine World Label where
  Init world := Start world.jobs ∧ world.calls = [] ∧ world.messages = [] ∧
    world.minted = [] ∧ world.history = []
  Allowed world
    | .issue env call => Starts world call ∧ May world env call
    | .resume env index => ∀ call ∈ world.calls[index]?,
        May { world with calls := world.calls.eraseIdx index } env call
    | .drop _ => True
  step := World.step

section Runs

variable {Start Start' : JobTable → Prop} {May May' : World → Env → Call → Prop}

theorem eq_of_init {world : World} (hinit : (machine Start May).Init world) :
    world = ⟨world.jobs, [], [], [], []⟩ := by
  obtain ⟨-, hcalls, hmessages, hminted, hhistory⟩ := hinit
  rw [← hcalls, ← hmessages, ← hminted, ← hhistory]

/-- What a permitted step can be: a call runs a statement, being new or taken
out of the calls under way, or a call is given up. -/
theorem step_cases {world : World} {label : Label}
    (hallowed : (machine Start May).Allowed world label) :
    (∃ env call, Starts world call ∧ May world env call ∧
      world.step label = world.perform env call) ∨
    (∃ env call calls, (call :: calls).Perm world.calls ∧
      May { world with calls } env call ∧
      world.step label = { world with calls }.perform env call) ∨
    ∃ calls, calls.Sublist world.calls ∧ world.step label = { world with calls } := by
  cases label with
  | issue env call => exact .inl ⟨env, call, hallowed.1, hallowed.2, rfl⟩
  | resume env index =>
      rcases hcall : world.calls[index]? with _ | call
      · refine .inr (.inr ⟨world.calls, .refl _, ?_⟩)
        rw [World.step, hcall]
      · obtain ⟨hindex, hget⟩ := List.getElem?_eq_some_iff.1 hcall
        refine .inr (.inl ⟨env, call, world.calls.eraseIdx index, ?_, hallowed call hcall, ?_⟩)
        · rw [← hget]
          exact List.getElem_cons_eraseIdx_perm hindex
        · rw [World.step, hcall]
  | drop index =>
      exact .inr (.inr ⟨world.calls.eraseIdx index, List.eraseIdx_sublist .., rfl⟩)

theorem history_subset_step {world : World} {label : Label} {event : Event}
    (hevent : event ∈ world.history) : event ∈ (world.step label).history := by
  cases label with
  | issue env call => exact List.mem_append_right _ hevent
  | resume env index =>
      rw [World.step]
      split
      · exact hevent
      · exact List.mem_append_right _ hevent
  | drop index => exact hevent

/-- The calls under way after a statement: what it leads to, and the others. -/
theorem mem_calls_perform {world : World} {env : Env} {call other : Call}
    (hother : other ∈ (world.perform env call).calls) :
    Call.Leads env world.jobs call other ∨ other ∈ world.calls := by
  rcases List.mem_append.1 hother with hnext | hold
  · exact .inl (effect_leads (Option.mem_toList.1 hnext))
  · exact .inr hold

/-- A property of calls that a call hands on to what it leads to. -/
theorem forall_mem_calls_perform {Ok : Call → Prop} {world : World} {env : Env} {call : Call}
    (hcalls : ∀ other ∈ call :: world.calls, Ok other)
    (hleads : ∀ next, Call.Leads env world.jobs call next → Ok call → Ok next) :
    ∀ other ∈ (world.perform env call).calls, Ok other := by
  intro other hother
  obtain ⟨hcall, hrest⟩ := List.forall_mem_cons.1 hcalls
  rcases mem_calls_perform hother with hnext | hold
  · exact hleads other hnext hcall
  · exact hrest other hold

/-- The invariant rule of the machine.  A call that starts is first added to the
calls under way, so that `hperform`, the lemma about one statement, does not
distinguish first statements from later ones. -/
theorem invariant_of_perform (Inv : World → Prop) {world : World}
    (hreach : (machine Start May).Reachable world)
    (hinit : ∀ table, Start table → Inv ⟨table, [], [], [], []⟩)
    (hsubperm : ∀ (world : World) (calls : List Call), calls.Subperm world.calls →
      Inv world → Inv { world with calls })
    (hissue : ∀ world env call, Starts world call → May world env call →
      Inv world → Inv { world with calls := call :: world.calls })
    (hperform : ∀ world env call, May world env call →
      Inv { world with calls := call :: world.calls } → Inv (world.perform env call)) :
    Inv world := by
  refine hreach.invariant Inv ?_ ?_
  · intro initial hinitial
    rw [eq_of_init hinitial]
    exact hinit initial.jobs hinitial.1
  · intro before label _ hallowed hinv
    change Inv (before.step label)
    rcases step_cases hallowed with ⟨env, call, hstarts, hmay, hstep⟩ |
      ⟨env, call, calls, hperm, hmay, hstep⟩ | ⟨calls, hsublist, hstep⟩
    · rw [hstep]
      exact hperform before env call hmay (hissue before env call hstarts hmay hinv)
    · rw [hstep]
      exact hperform { before with calls } env call hmay
        (hsubperm before _ hperm.subperm hinv)
    · rw [hstep]
      exact hsubperm before calls hsublist.subperm hinv

/-- The runs of one machine are runs of another that asks for less.  What is
known of the calls under way may be used to show that it does. -/
theorem reachable_mono (Known : Call → Prop) {world : World}
    (hreach : (machine Start May).Reachable world)
    (hknown : ∀ world, (machine Start May).Reachable world →
      ∀ call ∈ world.calls, Known call)
    (hstart : ∀ table, Start table → Start' table)
    (hmay : ∀ world env call, (∀ other ∈ world.calls, Known other) →
      May world env call → May' world env call) :
    (machine Start' May').Reachable world := by
  induction hreach with
  | start hinit => exact .start ⟨hstart _ hinit.1, hinit.2⟩
  | next label hbefore hallowed ih =>
      have hcalls := hknown _ hbefore
      refine .next label ih ?_
      cases label with
      | issue env call => exact ⟨hallowed.1, hmay _ env call hcalls hallowed.2⟩
      | resume env index =>
          intro call hcall
          refine hmay _ env call (fun other hother => ?_) (hallowed call hcall)
          exact hcalls other (List.mem_of_mem_eraseIdx hother)
      | drop index => trivial

end Runs

/-! ## The events of one job -/

/-- The job whose row an event is about; what an `Enqueue` returned is about no
row. -/
def eventJob : Event → Option String
  | .created id | .claimed id _ | .ended id _ _ | .requeued id => some id
  | .enqueued .. => none

theorem eventJob_of_mem_statementEvents {statement : Statement} {row : Row}
    {event : Event} (hevent : event ∈ statementEvents statement row) :
    eventJob event = some row.id := by
  cases statement with
  | cancelJob | requeueExpiredRunning =>
      obtain ⟨leaseToken, -, rfl⟩ := List.mem_map.1 hevent
      rfl
  | renewLease => cases hevent
  | _ =>
      cases List.mem_singleton.1 hevent
      rfl

def eventsOf (history : List Event) (id : String) : List Event :=
  history.filter fun event => eventJob event = some id

theorem eventsOf_append (newer older : List Event) (id : String) :
    eventsOf (newer ++ older) id = eventsOf newer id ++ eventsOf older id :=
  List.filter_append ..

/-- A property of each row and of what happened to it, in a table from which
nothing is deleted. -/
structure RowsInv (RowInv : List Event → Row → Prop) (table : JobTable)
    (history : List Event) : Prop where
  present : ∀ row ∈ table.rows, RowInv (eventsOf history row.id) row
  absent : ∀ id, (∀ row ∈ table.rows, row.id ≠ id) → eventsOf history id = []

section Rows

variable {RowInv : List Event → Row → Prop} {table table' : JobTable}
  {history : List Event}

theorem RowsInv.exec (hrows : RowsInv RowInv table history) (statement : Statement)
    (hset : ∀ row ∈ table.rows, statement.Selects row →
      RowInv (eventsOf history row.id) row →
        RowInv (statementEvents statement row ++ eventsOf history row.id)
          (statement.set row)) :
    RowsInv RowInv (table.exec statement.update)
      ((table.affected statement.update).flatMap (statementEvents statement) ++
        history) := by
  have habout : ∀ row, ∀ event ∈ statementEvents statement row,
      eventJob event = some (jobs.key row) :=
    fun row event hevent => eventJob_of_mem_statementEvents hevent
  constructor
  · intro row hrow
    obtain ⟨old, hold, rfl⟩ := Table.mem_exec.1 hrow
    have hemit : eventsOf
        ((table.affected statement.update).flatMap (statementEvents statement)) old.id =
        if statement.update.selects old then statementEvents statement old else [] :=
      Table.filter_flatMap_emit table statement.update habout hold
    have hinv := hrows.present old hold
    by_cases hselects : statement.update.selects old
    · have hid : (statement.update.set old).id = old.id := statement.set_id old
      rw [if_pos hselects] at hemit ⊢
      rw [hid, eventsOf_append, hemit]
      exact hset old hold hselects hinv
    · rw [if_neg hselects] at hemit ⊢
      rw [eventsOf_append, hemit]
      exact hinv
  · intro id hid
    have hold : ∀ row ∈ table.rows, row.id ≠ id := by
      intro row hrow heq
      refine hid _ (Table.mem_exec.2 ⟨row, hrow, rfl⟩) ?_
      split
      · exact (statement.set_id row).trans heq
      · exact heq
    rw [eventsOf_append, hrows.absent id hold, List.append_nil]
    exact Table.filter_flatMap_emit_of_forall_ne habout fun row hrow =>
      hold row (Table.mem_affected.1 hrow).1

theorem RowsInv.insert (hrows : RowsInv RowInv table history) {row : Row}
    (hinsert : table.insert row = .ok table') (hrow : RowInv [.created row.id] row) :
    RowsInv RowInv table' (.created row.id :: history) := by
  have hfresh : ∀ other ∈ table.rows, other.id ≠ row.id :=
    (Table.insert_eq_ok hinsert).2.1
  constructor
  · intro other hother
    rcases (Table.mem_insert hinsert).1 hother with hold | rfl
    · have hne : row.id ≠ other.id := (hfresh other hold).symm
      rw [eventsOf, List.filter_cons_of_neg (by simpa [eventJob] using hne)]
      exact hrows.present other hold
    · rw [eventsOf, List.filter_cons_of_pos (by simp [eventJob])]
      rw [← eventsOf, hrows.absent other.id hfresh]
      exact hrow
  · intro id hid
    have hne : row.id ≠ id := hid row ((Table.mem_insert hinsert).2 (.inr rfl))
    rw [eventsOf, List.filter_cons_of_neg (by simpa [eventJob] using hne)]
    exact hrows.absent id fun other hother =>
      hid other ((Table.mem_insert hinsert).2 (.inl hother))

theorem RowsInv.enqueued (hrows : RowsInv RowInv table history)
    (tenant key id : String) (inserted published : Bool) :
    RowsInv RowInv table (.enqueued tenant key id inserted published :: history) :=
  ⟨hrows.present, hrows.absent⟩

variable {world : World} {env : Env} {call : Call}

/-- A statement keeps a property of rows when it keeps it on each row it selects
and `CreateJob` establishes it. -/
theorem RowsInv.perform (hrows : RowsInv RowInv world.jobs world.history)
    (hdelete : ∀ ids, call ≠ .deleteExec ids)
    (hset : ∀ statement, call.statement env world.jobs = some statement →
      ∀ row ∈ world.jobs.rows, statement.Selects row →
      RowInv (eventsOf world.history row.id) row →
        RowInv (statementEvents statement row ++ eventsOf world.history row.id)
          (statement.set row))
    (hcreate : ∀ job, call.Inserts job →
      RowInv [.created (prepareJob env job).id]
        (createRow env.storeNow (prepareJob env job))) :
    RowsInv RowInv (world.perform env call).jobs (world.perform env call).history := by
  change RowsInv RowInv (call.effect env world.jobs).table
    ((call.effect env world.jobs).events ++ world.history)
  have hdoes := effect_does env world.jobs call
  generalize (call.effect env world.jobs).table = after at hdoes ⊢
  generalize (call.effect env world.jobs).events = events at hdoes ⊢
  cases hdoes with
  | nothing => exact hrows
  | found job existing hcall hfound => exact hrows.enqueued ..
  | updated statement hstatement => exact hrows.exec statement (hset statement hstatement)
  | inserted job after hcall hcreated =>
      exact (hrows.insert (createJob_eq_ok hcreated) (hcreate job hcall)).enqueued ..
  | deleted ids hcall => exact absurd hcall (hdelete ids)

end Rows

/-! ## A concrete caller -/

/-- The world in which nothing has happened yet. -/
def emptyWorld : World := ⟨Table.empty jobs, [], [], [], []⟩

/-- A caller whose clocks all read `now` and whose random bytes are all `seed`. -/
def plainEnv (seed : UInt8) (now : ℤ) (jobID : String) : Env where
  engine := ⟨defaultMaxAttempts⟩
  now := now
  storeNow := now
  dbNow := now
  random _ := seed
  jobID := jobID
  delay := minute
  locked _ := false

/-- A job as the API handler builds it from a request that names only a task. -/
def plainJob : Job where
  id := ""
  tenantID := "default"
  idempotencyKey := ""
  task := {
    id := "", name := "report", payload := none, retryCount := 0, maxRetries := 0,
    timeout := 0, cronExpression := "", queue := "", metadata := none, priority := 0 }
  state := .unset
  attempt := 0
  scheduledAt := none
  startedAt := none
  leaseExpiresAt := none
  leaseToken := ""
  completedAt := none
  lastError := ""
  metadata := none
  createdAt := zeroTime
  updatedAt := zeroTime

theorem fromCaller_plainJob : FromCaller plainJob :=
  ⟨rfl, rfl, rfl, rfl, rfl, rfl, rfl, rfl, rfl, rfl⟩

/-- A job is enqueued, and claimed a minute later. -/
def claimedRun : List Label :=
  [.issue (plainEnv 1 0 "job-1") (.enqueue plainJob),
    .issue (plainEnv 1 minute "") (.claimNextJob minute ⟨anyTenant, [], []⟩)]

theorem allowedRun_claimedRun {Start : JobTable → Prop}
    {May : World → Env → Call → Prop}
    (henqueue : May emptyWorld (plainEnv 1 0 "job-1") (.enqueue plainJob))
    (hclaim : May (emptyWorld.perform (plainEnv 1 0 "job-1") (.enqueue plainJob))
      (plainEnv 1 minute "") (.claimNextJob minute ⟨anyTenant, [], []⟩)) :
    (machine Start May).AllowedRun emptyWorld claimedRun := by
  refine ⟨⟨⟨rfl, ?_⟩, henqueue⟩, ⟨⟨rfl, ?_⟩, hclaim⟩, trivial⟩
  · rintro message lease ⟨⟩
  · rintro message lease ⟨⟩

theorem freshToken_claimedRun :
    FreshToken emptyWorld (plainEnv 1 0 "job-1") (.enqueue plainJob) ∧
      FreshToken (emptyWorld.perform (plainEnv 1 0 "job-1") (.enqueue plainJob))
        (plainEnv 1 minute "") (.claimNextJob minute ⟨anyTenant, [], []⟩) := by
  constructor
  · exact freshToken_of_not_mints rfl
  · intro _
    decide +kernel

end Conduit.JobMachine
