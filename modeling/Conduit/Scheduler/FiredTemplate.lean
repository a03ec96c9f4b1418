import Conduit.Scheduler.OneJobPerFire

/-!
# What is scheduled is what is run

A schedule is a task template.  Replicas read it, enqueue its job and advance it, and in the
meantime the job is claimed, retried, released and recovered by anyone.  However all that is
interleaved, a job of the schedule carries the name, the payload, the metadata, the timeout,
the priority and the queue of the template, and its retry budget if it sets one, and so does
every claim of the job, from the table or from Kafka.

A claim from Kafka writes the metadata of the message to the row.  The row is that of the
message because ids are not used again.
-/

namespace Conduit.FiredTemplate

open Models Relational JobStore JobService JobWorker JobCalls JobMachine IdempotentEnqueue
open ScheduleStore Scheduler Replicas OneJobPerFire Transition

/-- The task is the template, with the default queue if the template names none.  Without
metadata is as with empty metadata: a message makes null of an empty object. -/
structure Carries (template task : Task) : Prop where
  name : task.name = template.name
  payload : task.payload = template.payload
  timeout : task.timeout = template.timeout
  priority : task.priority = template.priority
  queue : task.queue = if template.queue = "" then defaultQueue else template.queue
  maxRetries : 0 < template.maxRetries → task.maxRetries = template.maxRetries
  metadata : task.metadata.getD ∅ = template.metadata.getD ∅

/-- The row has the key of a fire. -/
def FireOf (id : String) (fireAt : ℤ) (job : Row) : Prop :=
  job.idempotencyKey = some (fireKey id fireAt)

/-- The job of a schedule as it was created. -/
structure JobOf (origin : Schedule) (job : Job) : Prop where
  tenantID : job.tenantID = fireTenant origin.tenantID
  task : Carries (scanSchedule (scheduleRow origin)).task job.task

/-! ## Rows of the two tables -/

theorem getD_unmarshalMap (fields : Option StringMap) :
    (unmarshalMap (marshalMap fields)).getD ∅ = fields.getD ∅ := by
  rw [unmarshalMap_marshalMap]

theorem getD_omitEmpty (fields : Option StringMap) :
    (omitEmpty fields).getD ∅ = fields.getD ∅ := by
  rw [omitEmpty]
  split
  · rename_i hempty
    rw [hempty]
    rfl
  · rfl

/-- Of the columns of the template, a statement writes at most the metadata. -/
theorem Carries.set {template : Task} {row : Row} (hcarries : Carries template (scanJob row).task)
    (statement : Statement) (hupdate : ∀ job updatedAt, statement = .updateJob job updatedAt →
      job.task.metadata.getD ∅ = template.metadata.getD ∅) :
    Carries template (scanJob (statement.set row)).task := by
  cases statement with
  | updateJob job updatedAt => exact { hcarries with
      metadata := (getD_unmarshalMap job.task.metadata).trans (hupdate job updatedAt rfl) }
  | _ => exact { hcarries with }

theorem task_withTenant (job : Job) : (withTenant job).task = job.task := by
  rw [withTenant]
  split <;> rfl

theorem carries_prepareJob (env : Env) (job : Job) :
    Carries job.task (prepareJob env job).task where
  name := rfl
  payload := rfl
  timeout := rfl
  priority := rfl
  queue := rfl
  maxRetries hpositive := if_pos hpositive
  metadata := rfl

theorem carries_createRow (env : Env) (now : ℤ) (job : Job) :
    Carries job.task (scanJob (createRow now (prepareJob env job))).task :=
  { carries_prepareJob env job with metadata := getD_unmarshalMap job.task.metadata }

theorem carries_delivered (env : Env) (job : Job) :
    Carries job.task (delivered (prepareJob env job)).task :=
  { carries_prepareJob env job with metadata := getD_omitEmpty job.task.metadata }

theorem key_of_nullableString {key fire : String} (hkey : nullableString key = some fire) :
    key = fire := by
  rw [nullableString] at hkey
  split at hkey
  · cases hkey
  · exact Option.some.inj hkey

/-- The rows a call leaves: an earlier one, changed by its statement if at all, or a new one
under a new id. -/
theorem row_of_does {env : Env} {table after : JobTable} {call : Call} {events : List Event}
    (hdoes : call.Does env table after events) {row : Row} (hrow : row ∈ after.rows) :
    (∃ old ∈ table.rows, row = old ∨ ∃ statement : Statement,
      call.statement env table = some statement ∧ statement.Selects old ∧
        row = statement.set old) ∨
      ∃ job, call.Inserts job ∧ row = createRow env.storeNow (prepareJob env job) ∧
        ∀ old ∈ table.rows, old.id ≠ row.id := by
  cases hdoes with
  | nothing | found => exact .inl ⟨row, hrow, .inl rfl⟩
  | updated statement hstatement =>
      obtain ⟨old, hold, rfl⟩ := Table.mem_exec.mp hrow
      refine .inl ⟨old, hold, ?_⟩
      split
      · rename_i hselects
        exact .inr ⟨statement, hstatement, hselects, rfl⟩
      · exact .inl rfl
  | inserted job after hcall hcreate =>
      have hinsert := createJob_eq_ok hcreate
      rcases (Table.mem_insert hinsert).mp hrow with hold | rfl
      · exact .inl ⟨row, hold, .inl rfl⟩
      · exact .inr ⟨job, hcall, rfl, (Table.insert_eq_ok hinsert).2.1⟩
  | deleted ids hcall => exact .inl ⟨row, (Table.mem_delete.mp hrow).1, .inl rfl⟩

/-- The row is that of a schedule as `CreateSchedule` returned it, but for when it runs. -/
structure RowOf (created : Schedule) (row : ScheduleRow) : Prop where
  id : created.id = row.id
  tenantID : created.tenantID = row.tenantID
  task : (scanSchedule (scheduleRow created)).task = (scanSchedule row).task

theorem RowOf.advance {created : Schedule} {row : ScheduleRow} (hrow : RowOf created row)
    (id lastJobID : String) (observed next dbNow : ℤ) :
    RowOf created ((ScheduleStore.advance id observed next lastJobID dbNow).set row) :=
  ⟨hrow.id, hrow.tenantID, hrow.task⟩

/-! ## Schedules come and go -/

/-- The replicas and their tables, with every schedule `CreateSchedule` has returned. -/
structure Templates where
  system : System
  created : List Schedule

inductive Label
  | create (requested : Schedule) (newID : String) (now : ℤ)
  | delete (tenant id : String)
  | replicas (label : Replicas.Label)

def step (state : Templates) : Label → Templates
  | .create requested newID now =>
      let answer := createSchedule state.system.schedules newID now requested
      { system := { state.system with schedules := answer.2 }
        created := answer.1.toOption.toList ++ state.created }
  | .delete tenant id => { state with
      system := { state.system with
        schedules := (deleteSchedule state.system.schedules tenant id).2 } }
  | .replicas label => { state with system := state.system.step label }

/-- A new job has an id under which no message was published. -/
def FreshIds (before after : World) : Prop :=
  ∀ row ∈ after.jobs.rows, (∀ old ∈ before.jobs.rows, old.id ≠ row.id) →
    ∀ message ∈ before.messages, message.id ≠ row.id

instance (before after : World) : Decidable (FreshIds before after) :=
  inferInstanceAs (Decidable (∀ row ∈ _, (∀ old ∈ _, _) → ∀ message ∈ _, _))

/-- Replicas and other callers as in the machine of the replicas.  It starts without
schedules, without jobs of theirs and with nothing published, and no id is given to two
schedules or, once a message has it, to another job. -/
def machine (Spared : System → Row → Prop) : Machine Templates Label where
  Init state := (Replicas.machine Spared).Init state.system ∧
    state.system.schedules.rows = [] ∧ state.created = [] ∧
    state.system.world.messages = [] ∧
    ∀ job ∈ state.system.world.jobs.rows, ∀ id fireAt, ¬ FireOf id fireAt job
  Allowed state
    | .create requested newID now => ∀ created ∈ state.created,
        created.id ≠ (prepareSchedule newID now requested).id
    | .delete _ _ => True
    | .replicas label => (Replicas.machine Spared).Allowed state.system label ∧
        FreshIds state.system.world (state.system.step label).world
  step := step

/-! ## The invariant -/

/-- The statements a fire of the schedule enqueues its job with. -/
def EnqueuesFire (sched : Schedule) (call : Call) : Prop :=
  call = .enqueue (fireJob sched) ∨ call = .enqueueInsert (withTenant (fireJob sched)) ∨
    ∃ job, call = .enqueueRelookup job

/-- A replica holds rows of schedules that were created and enqueues the job of the first
of them. -/
structure ReplicaOk (created : List Schedule) (replica : Replica) : Prop where
  held : ∀ sched ∈ replica.due, ∃ origin ∈ created, origin.id = sched.id ∧
    origin.tenantID = sched.tenantID ∧ (scanSchedule (scheduleRow origin)).task = sched.task
  enqueueing : ∀ sched next call, replica.due.head? = some sched →
    replica.stage = .enqueueing next call → EnqueuesFire sched call

/-- A Kafka claim is of a published message. -/
def Backed (messages : List Job) : Call → Prop
  | .kafkaClaim message _ => message ∈ messages
  | .kafkaWrite job => ∃ message ∈ messages, job.id = message.id ∧ job.task = message.task
  | _ => True

/-- Rows and messages of fires are jobs of schedules that were created. -/
structure WorldOk (created : List Schedule) (world : World) : Prop where
  distinct : created.Pairwise fun left right => left.id ≠ right.id
  known : ∀ job ∈ world.jobs.rows, ∀ {id : String} {fireAt : ℤ},
    FireOf id fireAt job → ∃ origin ∈ created, origin.id = id ∧ JobOf origin (scanJob job)
  sent : ∀ message ∈ world.messages, ∀ {id : String} {fireAt : ℤ},
    message.idempotencyKey = fireKey id fireAt →
      ∃ origin ∈ created, origin.id = id ∧ JobOf origin message
  keyed : ∀ message ∈ world.messages, ∀ job ∈ world.jobs.rows, job.id = message.id →
    job.idempotencyKey = nullableString message.idempotencyKey
  backed : ∀ call ∈ world.calls, Backed world.messages call

structure TemplateInv (created : List Schedule) (system : System) : Prop where
  stored : ∀ row ∈ system.schedules.rows, ∃ origin ∈ created, RowOf origin row
  replica : ∀ replica ∈ system.replicas, ReplicaOk created replica
  world : WorldOk created system.world

section Invariant

variable {Spared : System → Row → Prop} {system : System} {created : List Schedule}

theorem EnqueuesFire.next {env : Env} {table : JobTable} {sched : Schedule} {call later : Call}
    (hcall : EnqueuesFire sched call) (hnext : (call.effect env table).next = some later) :
    EnqueuesFire sched later := by
  have henqueues : (enqueues call).isSome = true := by
    rcases hcall with rfl | rfl | ⟨job, rfl⟩
    · rfl
    · rfl
    · rfl
  cases effect_leads hnext with
  | enqueueInsert job hkey =>
      rcases hcall with hfire | hinsert | ⟨other, hrelookup⟩
      · cases hfire
        exact .inr (.inl rfl)
      · cases hinsert
      · cases hrelookup
  | enqueueRelookup call job hinserts hkey => exact .inr (.inr ⟨_, rfl⟩)
  | recheck call tenant id hrechecked =>
      rcases hrechecked with rfl | rfl
      · cases henqueues
      · cases henqueues
  | _ => cases henqueues

theorem EnqueuesFire.inserts {sched : Schedule} {call : Call} {job : Job}
    (hcall : EnqueuesFire sched call) (hinserts : call.Inserts job) :
    job = withTenant (fireJob sched) := by
  have henqueued := enqueues_of_inserts hinserts
  rcases hcall with rfl | rfl | ⟨other, rfl⟩
  · exact (Option.some.inj henqueued).symm
  · exact (Option.some.inj henqueued).symm
  · rcases hinserts with hinsert | ⟨requested, hrequested, -⟩
    · cases hinsert
    · cases hrequested

theorem ReplicaOk.done {replica : Replica} (hok : ReplicaOk created replica) :
    ReplicaOk created replica.done where
  held sched hsched := hok.held sched (List.mem_of_mem_tail hsched)
  enqueueing := by
    intro sched next call _ hstage
    cases hstage

theorem TemplateInv.put (hinv : TemplateInv created system) (index : ℕ) {replica : Replica}
    (hok : ReplicaOk created replica) : TemplateInv created (system.put index replica) where
  __ := hinv
  replica other hother := by
    rcases List.mem_or_eq_of_mem_set hother with hold | rfl
    · exact hinv.replica other hold
    · exact hok

/-! ### Statements on the job table -/

theorem Backed.mono {messages more : List Job} {call : Call} (hcall : Backed messages call)
    (hsub : messages ⊆ more) : Backed more call := by
  cases call with
  | kafkaClaim message lease => exact hsub hcall
  | kafkaWrite job =>
      obtain ⟨message, hmessage, hsame⟩ := hcall
      exact ⟨message, hsub hmessage, hsame⟩
  | _ => trivial

theorem Backed.of_starts {world : World} {call : Call} (hstarts : Starts world call) :
    Backed world.messages call := by
  cases call with
  | kafkaClaim message lease => exact hstarts.published message lease rfl
  | kafkaWrite job => cases hstarts.initial
  | _ => trivial

theorem Backed.next {messages : List Job} {env : Env} {table : JobTable} {call later : Call}
    (hleads : Call.Leads env table call later) (hcall : Backed messages call) :
    Backed messages later := by
  cases hleads with
  | kafkaWrite message lease => exact ⟨message, hcall, rfl, rfl⟩
  | _ => trivial

theorem WorldOk.eq_of_id {world : World} (hok : WorldOk created world) {left right : Schedule}
    (hleft : left ∈ created) (hright : right ∈ created) (hid : left.id = right.id) :
    left = right := by
  by_contra hne
  have : Std.Symm fun left right : Schedule => left.id ≠ right.id := ⟨fun _ _ h => h.symm⟩
  exact hok.distinct.forall hleft hright hne hid

/-- The inserts of the call carry the template of the schedule they are for. -/
def InsertsTemplates (created : List Schedule) (call : Call) : Prop :=
  ∀ job, call.Inserts job → ∀ {id : String} {fireAt : ℤ},
    job.idempotencyKey = fireKey id fireAt → ∃ origin ∈ created, origin.id = id ∧
      job.tenantID = fireTenant origin.tenantID ∧
      job.task = (scanSchedule (scheduleRow origin)).task

section Statement

variable {world : World} {env : Env} {call : Call}

/-- The message behind a write has the key of the row, so it is of the same schedule. -/
theorem WorldOk.known_set (hok : WorldOk created world)
    (hbacked : Backed world.messages call) {statement : Statement}
    (hstatement : call.statement env world.jobs = some statement) {row : Row}
    (hrow : row ∈ world.jobs.rows) (hselects : statement.Selects row) {id : String} {fireAt : ℤ}
    (hfire : FireOf id fireAt row) :
    ∃ origin ∈ created, origin.id = id ∧ JobOf origin (scanJob (statement.set row)) := by
  obtain ⟨origin, horigin, hid, htenant, hcarries⟩ := hok.known row hrow hfire
  refine ⟨origin, horigin, hid, (statement.set_tenantID row).trans htenant,
    hcarries.set statement ?_⟩
  rintro job updatedAt rfl
  obtain ⟨rfl, -⟩ := statement_eq_updateJob hstatement
  obtain ⟨message, hmessage, hsame, htask⟩ := hbacked
  have hkey := hok.keyed message hmessage row hrow (hselects.1.trans hsame)
  obtain ⟨other, hother, hotherID, hsent⟩ :=
    hok.sent message hmessage (key_of_nullableString (hkey.symm.trans hfire))
  obtain rfl := hok.eq_of_id hother horigin (hotherID.trans hid.symm)
  rw [htask]
  exact hsent.task.metadata

theorem WorldOk.absorb (hok : WorldOk created world)
    (hbacked : Backed world.messages call) (hinserts : InsertsTemplates created call)
    (hfresh : FreshIds world (world.absorb (call.effect env world.jobs))) :
    WorldOk created (world.absorb (call.effect env world.jobs)) where
  distinct := hok.distinct
  known := by
    intro job hjob id fireAt hfire
    rcases row_of_does (effect_does env world.jobs call) hjob with
      ⟨old, hold, rfl | ⟨statement, hstatement, hselects, rfl⟩⟩ | ⟨inserted, hinserted, rfl, -⟩
    · exact hok.known job hold hfire
    · rw [FireOf, statement.set_idempotencyKey] at hfire
      exact hok.known_set hbacked hstatement hold hselects hfire
    · obtain ⟨origin, horigin, hid, htenant, htask⟩ :=
        hinserts inserted hinserted (key_of_nullableString hfire)
      refine ⟨origin, horigin, hid, htenant, ?_⟩
      rw [← htask]
      exact carries_createRow env env.storeNow inserted
  sent := by
    intro message hmessage id fireAt hkey
    rcases List.mem_append.mp hmessage with hnew | hold
    · obtain ⟨job, hinserted, rfl, -⟩ := effect_published (Option.mem_toList.mp hnew)
      obtain ⟨origin, horigin, hid, htenant, htask⟩ := hinserts job hinserted hkey
      refine ⟨origin, horigin, hid, htenant, ?_⟩
      rw [← htask]
      exact carries_delivered env job
    · exact hok.sent message hold hkey
  keyed := by
    intro message hmessage job hjob hid
    rcases List.mem_append.mp hmessage with hnew | hsent
    · obtain ⟨inserted, -, rfl, -, hcreate⟩ := effect_published (Option.mem_toList.mp hnew)
      have hinsert := createJob_eq_ok hcreate
      rcases (Table.mem_insert hinsert).mp hjob with hold | rfl
      · exact absurd hid ((Table.insert_eq_ok hinsert).2.1 job hold)
      · rfl
    · rcases row_of_does (effect_does env world.jobs call) hjob with
        ⟨old, hold, rfl | ⟨statement, -, -, rfl⟩⟩ | ⟨inserted, -, -, hnew⟩
      · exact hok.keyed message hsent job hold hid
      · rw [statement.set_id] at hid
        rw [statement.set_idempotencyKey]
        exact hok.keyed message hsent old hold hid
      · exact absurd hid.symm (hfresh job hjob hnew message hsent)
  backed other hother := (hok.backed other hother).mono (List.subset_append_right _ _)

theorem WorldOk.perform (hok : WorldOk created world)
    (hbacked : Backed world.messages call) (hinserts : InsertsTemplates created call)
    (hfresh : FreshIds world (world.perform env call)) :
    WorldOk created (world.perform env call) := by
  have habsorbed := hok.absorb hbacked hinserts hfresh
  refine { habsorbed with
    backed := forall_mem_calls_perform ?_ fun next hleads hcall => hcall.next hleads }
  exact List.forall_mem_cons.mpr
    ⟨hbacked.mono (List.subset_append_right _ _), habsorbed.backed⟩

theorem TemplateInv.insertsTemplates (hinv : TemplateInv created system) {replica : Replica}
    {sched : Schedule} (hreplica : replica ∈ system.replicas) (hsched : sched ∈ replica.due)
    (hcall : EnqueuesFire sched call) : InsertsTemplates created call := by
  intro job hinserts id fireAt hkey
  obtain rfl := hcall.inserts hinserts
  rw [idempotencyKey_fireJob] at hkey
  obtain ⟨origin, horigin, hid, htenant, htask⟩ :=
    (hinv.replica replica hreplica).held sched hsched
  refine ⟨origin, horigin, hid.trans (fireKey_injective hkey).1, ?_, ?_⟩
  · rw [tenantID_fireJob, htenant]
  · rw [task_withTenant, htask]
    rfl

theorem insertsTemplates_of_otherCallers (hmay : OtherCallers Spared system world env call) :
    InsertsTemplates created call := by
  intro job hinserts id fireAt hkey
  have hforeign := hmay.1 job (enqueues_of_inserts hinserts)
  rw [hkey] at hforeign
  exact absurd (prefix_fireKey id fireAt) hforeign

theorem EnqueuesFire.backed {messages : List Job} {sched : Schedule}
    (hcall : EnqueuesFire sched call) : Backed messages call := by
  rcases hcall with rfl | rfl | ⟨job, rfl⟩
  · trivial
  · trivial
  · trivial

end Statement

theorem TemplateInv.advance (hinv : TemplateInv created system) (id lastJobID : String)
    (observed next dbNow : ℤ) (advances : List Advance) :
    TemplateInv created { system with
      schedules := system.schedules.exec
        (ScheduleStore.advance id observed next lastJobID dbNow)
      advances } where
  stored := by
    refine Table.exec_forall hinv.stored ?_
    rintro row - - ⟨origin, horigin, hrow⟩
    exact ⟨origin, horigin, hrow.advance id lastJobID observed next dbNow⟩
  __ := hinv

/-! ## Steps -/

theorem TemplateInv.work (hinv : TemplateInv created system) (index : ℕ) {replica : Replica}
    {sched : Schedule} (hreplica : replica ∈ system.replicas)
    (hhead : replica.due.head? = some sched) (env : Env)
    (hfresh : FreshIds system.world (system.work index replica sched env).world) :
    TemplateInv created (system.work index replica sched env) := by
  have hok := hinv.replica replica hreplica
  have hsched : sched ∈ replica.due := List.mem_of_head? hhead
  cases hstage : replica.stage with
  | ready =>
      simp only [System.work, hstage]
      split
      · exact hinv.put index hok.done
      · refine hinv.put index ⟨hok.held, fun first next call hfirst hcall => ?_⟩
        cases hcall
        obtain rfl := Option.some.inj (hhead.symm.trans hfirst)
        exact .inl rfl
  | enqueueing next call =>
      have hcall := hok.enqueueing sched next call hhead hstage
      have hjobs : (system.work index replica sched env).world =
          system.world.absorb (call.effect env system.world.jobs) := by
        simp only [System.work, hstage]
        split <;> rfl
      rw [hjobs] at hfresh
      have habsorbed : TemplateInv created { system with
          world := system.world.absorb (call.effect env system.world.jobs) } :=
        ⟨hinv.stored, hinv.replica, hinv.world.absorb hcall.backed
          (hinv.insertsTemplates hreplica hsched hcall) hfresh⟩
      simp only [System.work, hstage]
      split
      · rename_i later hnext
        refine habsorbed.put index ⟨hok.held, fun first next' call' hfirst hstage' => ?_⟩
        cases hstage'
        obtain rfl := Option.some.inj (hhead.symm.trans hfirst)
        exact hcall.next hnext
      · refine habsorbed.put index ⟨hok.held, fun first next' call' _ hstage' => ?_⟩
        cases hstage'
      · exact habsorbed.put index hok.done
  | advancing next jobID =>
      simp only [System.work, hstage]
      exact (hinv.put index hok.done).advance sched.id jobID sched.nextRunAt next env.dbNow _

theorem TemplateInv.replicas (hinv : TemplateInv created system) {label : Replicas.Label}
    (hallowed : (Replicas.machine Spared).Allowed system label)
    (hfresh : FreshIds system.world (system.step label).world) :
    TemplateInv created (system.step label) := by
  cases label with
  | read index now limit =>
      refine hinv.put index ⟨fun sched hsched => ?_, fun sched next call _ hstage => ?_⟩
      · obtain ⟨row, hrow, -, rfl⟩ := mem_dueSchedules hsched
        obtain ⟨origin, horigin, hid, htenant, htask⟩ := hinv.stored row hrow
        exact ⟨origin, horigin, hid, htenant, htask⟩
      · cases hstage
  | work index env =>
      rw [System.step] at hfresh ⊢
      cases hget : system.replicas[index]? with
      | none => exact hinv
      | some replica =>
          rw [hget] at hfresh
          dsimp only at hfresh ⊢
          cases hdue : replica.due with
          | nil => exact hinv
          | cons sched rest =>
              rw [hdue] at hfresh
              exact hinv.work index (List.mem_of_getElem? hget)
                (congrArg List.head? hdue) env hfresh
  | giveUp index =>
      rw [System.step]
      cases hget : system.replicas[index]? with
      | none => exact hinv
      | some replica =>
          exact hinv.put index (hinv.replica replica (List.mem_of_getElem? hget)).done
  | crash index =>
      refine hinv.put index ⟨fun sched hsched => ?_, fun sched next call _ hstage => ?_⟩
      · cases hsched
      · cases hstage
  | jobs label =>
      have hjobs : (JobMachine.machine AnyTable (OtherCallers Spared system)).Allowed
          system.world label := hallowed
      refine ⟨hinv.stored, hinv.replica, ?_⟩
      change FreshIds system.world (system.world.step label) at hfresh
      change WorldOk created (system.world.step label)
      rcases step_cases hjobs with ⟨env, call, hstarts, hmay, hstep⟩ |
        ⟨env, call, calls, hperm, hmay, hstep⟩ | ⟨calls, hcalls, hstep⟩
      · rw [hstep] at hfresh ⊢
        exact hinv.world.perform (.of_starts hstarts)
          (insertsTemplates_of_otherCallers hmay) hfresh
      · have hbacked : ∀ other ∈ call :: calls, Backed system.world.messages other :=
          fun other hother => hinv.world.backed other (hperm.mem_iff.mp hother)
        have hrest : WorldOk created { system.world with calls } :=
          { hinv.world with backed := (List.forall_mem_cons.mp hbacked).2 }
        rw [hstep] at hfresh ⊢
        exact hrest.perform (hbacked call List.mem_cons_self)
          (insertsTemplates_of_otherCallers hmay) hfresh
      · rw [hstep]
        exact { hinv.world with
          backed := fun call hcall => hinv.world.backed call (hcalls.subset hcall) }

theorem ReplicaOk.cons {replica : Replica} (hok : ReplicaOk created replica)
    (sched : Schedule) : ReplicaOk (sched :: created) replica where
  held other hother := by
    obtain ⟨origin, horigin, hsame⟩ := hok.held other hother
    exact ⟨origin, List.mem_cons_of_mem _ horigin, hsame⟩
  enqueueing := hok.enqueueing

theorem TemplateInv.create (hinv : TemplateInv created system) {table : ScheduleTable}
    {sched : Schedule} (hfresh : ∀ other ∈ created, other.id ≠ sched.id)
    (hinsert : system.schedules.insert (scheduleRow sched) = .ok table) :
    TemplateInv (sched :: created) { system with schedules := table } where
  stored := by
    intro row hrow
    rcases (Table.mem_insert hinsert).mp hrow with hold | rfl
    · obtain ⟨origin, horigin, hrowOf⟩ := hinv.stored row hold
      exact ⟨origin, List.mem_cons_of_mem _ horigin, hrowOf⟩
    · exact ⟨sched, List.mem_cons_self, rfl, rfl, rfl⟩
  replica replica hreplica := (hinv.replica replica hreplica).cons sched
  world := by
    refine ⟨?_, ?_, ?_, hinv.world.keyed, hinv.world.backed⟩
    · exact List.pairwise_cons.mpr
        ⟨fun other hother => (hfresh other hother).symm, hinv.world.distinct⟩
    · intro job hjob id fireAt hfire
      obtain ⟨origin, horigin, hjobOf⟩ := hinv.world.known job hjob hfire
      exact ⟨origin, List.mem_cons_of_mem _ horigin, hjobOf⟩
    · intro message hmessage id fireAt hkey
      obtain ⟨origin, horigin, hjobOf⟩ := hinv.world.sent message hmessage hkey
      exact ⟨origin, List.mem_cons_of_mem _ horigin, hjobOf⟩

theorem TemplateInv.step {state : Templates} (hinv : TemplateInv state.created state.system)
    {label : Label} (hallowed : (machine Spared).Allowed state label) :
    TemplateInv (step state label).created (step state label).system := by
  cases label with
  | create requested newID now =>
      rw [FiredTemplate.step, createSchedule]
      dsimp only
      split
      · rename_i table hinsert
        exact hinv.create hallowed hinsert
      · exact hinv
  | delete tenant id =>
      refine ⟨fun row hrow => ?_, hinv.replica, hinv.world⟩
      exact hinv.stored row (Table.mem_delete.mp hrow).1
  | replicas label => exact hinv.replicas hallowed.1 hallowed.2

theorem templateInv {state : Templates} (hreach : (machine Spared).Reachable state) :
    TemplateInv state.created state.system := by
  refine hreach.invariant (fun state => TemplateInv state.created state.system) ?_
    fun _ _ _ hallowed hinv => hinv.step hallowed
  rintro ⟨system, created⟩ ⟨⟨-, hidle, hcalls, -⟩, hschedules, hcreated, hmessages, hnone⟩
  obtain rfl : created = [] := hcreated
  dsimp only at hcalls hmessages
  have hworld : WorldOk [] system.world := by
    refine ⟨.nil, fun job hjob {_ _} hfire => absurd hfire (hnone job hjob _ _), ?_, ?_, ?_⟩
    · simp [hmessages]
    · simp [hmessages]
    · simp [hcalls]
  refine ⟨fun row hrow => ?_,
    fun replica hreplica => ⟨fun sched hsched => ?_, fun sched next call hhead => ?_⟩, hworld⟩
  · change row ∈ system.schedules.rows at hrow
    rw [hschedules] at hrow
    cases hrow
  · rw [hidle replica hreplica] at hsched
    cases hsched
  · rw [hidle replica hreplica] at hhead
    cases hhead

/-- A worker gets the job: by `ClaimNextJob`, or from a message. -/
def Claims (world : World) (env : Env) (job : Job) : Prop :=
  (∃ lease filter, (claimNextJob world.jobs env.storeNow env.dbNow (newLeaseToken env.random)
    env.locked lease filter).1 = .ok job) ∨
  ∃ message ∈ world.messages, ∃ lease,
    job = claimMessage lease env.now (newLeaseToken env.random) message

/-- Whatever replicas and other callers did, and even if the schedule is gone by now, a
claim that gets the job of a fire gets the template of the schedule as it was created. -/
theorem claimed_job_carries_template {state : Templates}
    (hreach : (machine Spared).Reachable state) {origin : Schedule}
    (horigin : origin ∈ state.created) (env : Env) {job : Job}
    (hclaim : Claims state.system.world env job) {fireAt : ℤ}
    (hkey : job.idempotencyKey = fireKey origin.id fireAt) :
    job.tenantID = fireTenant origin.tenantID ∧ Carries origin.task job.task := by
  have hinv := templateInv hreach
  have hjob : ∃ found ∈ state.created, found.id = origin.id ∧ JobOf found job := by
    rcases hclaim with ⟨lease, filter, hclaim⟩ | ⟨message, hmessage, lease, rfl⟩
    · obtain ⟨row, hrow, -, rfl, -⟩ := exists_row_of_execReturning hclaim
      have hfire : FireOf origin.id fireAt row := by
        change row.idempotencyKey.getD "" = _ at hkey
        cases hstored : row.idempotencyKey with
        | none =>
            rw [hstored] at hkey
            exact absurd hkey.symm (fireKey_ne_empty origin.id fireAt)
        | some key =>
            rw [hstored] at hkey
            exact hstored.trans (congrArg some hkey)
      obtain ⟨found, hfound, hid, htenant, hcarries⟩ := hinv.world.known row hrow hfire
      exact ⟨found, hfound, hid, htenant, hcarries.set _ fun _ _ hupdate => by cases hupdate⟩
    · obtain ⟨found, hfound, hid, htenant, hcarries⟩ := hinv.world.sent message hmessage hkey
      exact ⟨found, hfound, hid, htenant, hcarries⟩
  obtain ⟨found, hfound, hid, htenant, hcarries⟩ := hjob
  obtain rfl := hinv.world.eq_of_id hfound horigin hid
  exact ⟨htenant, { hcarries with
    metadata := hcarries.metadata.trans (getD_unmarshalMap found.task.metadata) }⟩

end Invariant

/-- A schedule for every minute, due at minute one, whose task has a URL. -/
def minutely : Schedule :=
  let sched := scanSchedule (plainSchedule "* * * * *" minute)
  { sched with task := { sched.task with
      metadata := some (Finmap.singleton "url" "https://example.com") } }

/-- The schedule has been created. -/
def createdState : Templates :=
  step ⟨{ minutelySystem with schedules := .empty schedules }, []⟩ (.create minutely "" 0)

/-- A replica fires it. -/
def firedState : Templates :=
  (machine HeldOrAwaited).run createdState (firedRun.map .replicas)

theorem reachable_createdState : (machine HeldOrAwaited).Reachable createdState := by
  have hinit : (machine HeldOrAwaited).Init
      ⟨{ minutelySystem with schedules := .empty schedules }, []⟩ := by
    refine ⟨⟨?_, (init_minutelySystem HeldOrAwaited).2.1, rfl, rfl, rfl⟩, rfl, rfl, rfl, ?_⟩
    · exact fun row hrow => absurd hrow List.not_mem_nil
    · exact fun job hjob => absurd hjob List.not_mem_nil
  exact (Machine.Reachable.start hinit).next (Label.create minutely "" 0)
    fun created hcreated => absurd hcreated List.not_mem_nil

theorem reachable_firedState : (machine HeldOrAwaited).Reachable firedState := by
  refine reachable_createdState.run ⟨⟨allowed_read ?_, ?_⟩, ⟨trivial, ?_⟩, ⟨trivial, ?_⟩,
    ⟨trivial, ?_⟩, ⟨trivial, ?_⟩, trivial⟩
  all_goals decide +kernel

/-- The job is claimed with the template of the schedule, from the table and from the message
the replica published. -/
theorem claimed_job_carries_template_firedState :
    (∃ job, (claimNextJob firedState.system.world.jobs minute minute
        (newLeaseToken fun _ => 1) (fun _ => false) minute ⟨anyTenant, [], []⟩).1 = .ok job ∧
      job.tenantID = fireTenant "default" ∧ Carries minutely.task job.task) ∧
    ∃ message ∈ firedState.system.world.messages, Carries minutely.task message.task := by
  have horigin : minutely ∈ firedState.created := by decide +kernel
  constructor
  · have hkeys : (claimNextJob firedState.system.world.jobs minute minute
        (newLeaseToken fun _ => 1) (fun _ => false) minute
        ⟨anyTenant, [], []⟩).1.toOption.map Job.idempotencyKey =
          some (fireKey "schedule-1" minute) := by decide +kernel
    cases hclaim : (claimNextJob firedState.system.world.jobs minute minute
        (newLeaseToken fun _ => 1) (fun _ => false) minute ⟨anyTenant, [], []⟩).1 with
    | error err =>
        rw [hclaim] at hkeys
        cases hkeys
    | ok job =>
        rw [hclaim] at hkeys
        exact ⟨job, rfl, claimed_job_carries_template reachable_firedState horigin
          (plainEnv 1 minute "") (.inl ⟨minute, ⟨anyTenant, [], []⟩, hclaim⟩)
          (Option.some.inj hkeys)⟩
  · have hsent : ∃ message ∈ firedState.system.world.messages,
        message.idempotencyKey = fireKey "schedule-1" minute := by decide +kernel
    obtain ⟨message, hmessage, hkey⟩ := hsent
    exact ⟨message, hmessage, (claimed_job_carries_template reachable_firedState horigin
      (plainEnv 1 minute "") (.inr ⟨message, hmessage, minute, rfl⟩) hkey).2⟩

end Conduit.FiredTemplate
