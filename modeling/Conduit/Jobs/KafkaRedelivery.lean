import Conduit.Jobs.RetryBudget

/-!
# Redelivered Kafka messages

The message of a job is a snapshot taken when it was enqueued, and the claim of
a delivery writes the snapshot back: `attempt`, `last_error`, `scheduled_at`,
`task_retry_count` and both metadata columns of the row become those of the
message.  A delivery that finds the row as it was enqueued claims it the way
`ClaimNextJob` would; a later one undoes what was recorded since.  The runs are
those of `LeaseCalls`, in which `DeleteFinished` removes no row.
-/

namespace Conduit.KafkaRedelivery

open Models Relational JobStore JobService JobWorker JobCalls JobMachine LeaseFencing RowInvariant
open RetryBudget Transition

/-! ## Two claims of one row -/

/-- The claim that wrote `job` over `row` found it pending and due, and left the
row `ClaimNextJob` would have written at the same time and with the same token.
`updated_at` is the clock reading of the store and no part of the comparison. -/
def LikeClaim (job : Job) (row after : Row) : Prop :=
  ∃ now ∈ job.startedAt, ∃ expires ∈ job.leaseExpiresAt,
    row.state = .pending ∧ (∀ scheduledAt ∈ row.scheduledAt, scheduledAt ≤ now) ∧
    after = { (Statement.claimNextJob (some row.id) now expires job.leaseToken).set row with
      updatedAt := after.updatedAt }

/-- The row still is what the message says: nothing was recorded in it since the
enqueue, and neither metadata column holds the empty object, which the message
cannot carry. -/
structure SnapshotCurrent (job : Job) (row : Row) : Prop where
  attempt : job.attempt = row.attempt + 1
  lastError : job.lastError = row.lastError
  scheduledAt : job.scheduledAt.map timestamptz = row.scheduledAt
  retryCount : job.task.retryCount = row.taskRetryCount
  metadata : row.metadata ≠ Jsonb.emptyObject
  taskMetadata : row.taskMetadata ≠ Jsonb.emptyObject

/-- A metadata column holds what the message carries, or the empty object that
`omitempty` dropped from it. -/
def ColumnOf (fields : Option StringMap) (column : Jsonb) : Prop :=
  column = marshalMap fields ∨ fields = none ∧ column = Jsonb.emptyObject

structure MetadataOf (message : Job) (row : Row) : Prop where
  metadata : ColumnOf message.metadata row.metadata
  taskMetadata : ColumnOf message.task.metadata row.taskMetadata

theorem columnOf_omitEmpty (fields : Option StringMap) :
    ColumnOf (omitEmpty fields) (marshalMap fields) := by
  rw [omitEmpty]
  by_cases hempty : fields = some ∅
  · rw [if_pos hempty, hempty]
    exact .inr ⟨rfl, rfl⟩
  · rw [if_neg hempty]
    exact .inl rfl

theorem omitEmpty_ne_empty (fields : Option StringMap) : omitEmpty fields ≠ some ∅ := by
  rw [omitEmpty]
  split
  · exact nofun
  · assumption

theorem marshalMap_ne_emptyObject {fields : Option StringMap} (hfields : fields ≠ some ∅) :
    marshalMap fields ≠ Jsonb.emptyObject := by
  intro hmarshal
  cases fields with
  | none => cases hmarshal
  | some fields =>
      injection hmarshal with hitem
      injection hitem with heq
      exact hfields (congrArg some heq)

/-- Writing the message's metadata keeps the column exactly when the column was
not the empty object. -/
theorem ColumnOf.marshalMap_eq_iff {fields : Option StringMap} {column : Jsonb}
    (hcolumn : ColumnOf fields column) (hfields : fields ≠ some ∅) :
    marshalMap fields = column ↔ column ≠ Jsonb.emptyObject := by
  rcases hcolumn with rfl | ⟨rfl, rfl⟩
  · exact ⟨fun _ => marshalMap_ne_emptyObject hfields, fun _ => rfl⟩
  · exact ⟨fun heq => absurd heq (marshalMap_ne_emptyObject hfields),
      fun hne => absurd rfl hne⟩

/-! ## What a delivery finds -/

/-- What is known of a call on the Kafka path. -/
def CallDelivery (messages : List Job) : Call → Prop
  | .kafkaClaim message _ => message ∈ messages
  | .kafkaWrite job => ∃ message ∈ messages, ∃ lease now leaseToken,
      job = claimMessage lease now leaseToken message ∧ ClaimsMessage now message
  | _ => True

structure DeliveryInv (world : World) : Prop where
  fencing : FencingInv world
  stored : ∀ message ∈ world.messages, ∃ row ∈ world.jobs.rows, row.id = message.id
  unique : ∀ left ∈ world.messages, ∀ right ∈ world.messages, left.id = right.id →
    left = right
  compact : ∀ message ∈ world.messages, message.metadata ≠ some ∅ ∧
    message.task.metadata ≠ some ∅
  metadata : ∀ message ∈ world.messages, ∀ row ∈ world.jobs.rows, row.id = message.id →
    row.state ≠ .completed → MetadataOf message row
  calls : ∀ call ∈ world.calls, CallDelivery world.messages call

section Row

variable {statement : Statement} {message : Job} {row : Row}

/-- Only `CompleteClaimedJob` and `UpdateJob` write metadata. -/
theorem MetadataOf.set (hrow : MetadataOf message row)
    (hcomplete : (statement.set row).state ≠ .completed)
    (hupdate : ∀ job updatedAt, statement = .updateJob job updatedAt →
      job.metadata = message.metadata ∧ job.task.metadata = message.task.metadata) :
    MetadataOf message (statement.set row) := by
  cases statement with
  | completeClaimedJob id leaseToken metadata dbNow => exact absurd rfl hcomplete
  | updateJob job updatedAt =>
      obtain ⟨hmetadata, htask⟩ := hupdate job updatedAt rfl
      exact ⟨.inl (congrArg marshalMap hmetadata), .inl (congrArg marshalMap htask)⟩
  | _ => exact ⟨hrow.metadata, hrow.taskMetadata⟩

end Row

section Perform

variable {world : World} {env : Env} {call : Call}

theorem metadataOf_createRow (job : Job) (now : ℤ) :
    MetadataOf (delivered job) (createRow now job) :=
  ⟨columnOf_omitEmpty job.metadata, columnOf_omitEmpty job.task.metadata⟩

/-- An `UPDATE` keeps what is known about the metadata of the row of a message. -/
theorem DeliveryInv.metadata_set {message : Job} {statement : Statement} {row : Row}
    (hinv : DeliveryInv { world with calls := call :: world.calls })
    (hmessage : message ∈ world.messages)
    (hstatement : call.statement env world.jobs = some statement)
    (hrow : row ∈ world.jobs.rows) (hselects : statement.Selects row)
    (hid : row.id = message.id) (hstate : (statement.set row).state ≠ .completed) :
    MetadataOf message (statement.set row) := by
  have hopen : row.state ≠ .completed := by
    intro hcompleted
    have hdead := (hinv.fencing.tokens.requeues_of_finished hrow hstatement hselects
      (.inl hcompleted)).1
    rw [hcompleted] at hdead
    cases hdead
  apply (hinv.metadata message hmessage row hrow hid hopen).set hstate
  rintro job updatedAt rfl
  obtain ⟨rfl, -⟩ := statement_eq_updateJob hstatement
  -- The message the job was claimed with is the one published for its id.
  obtain ⟨sent, hsent, lease, now, leaseToken, rfl, -⟩ :=
    hinv.calls (.kafkaWrite job) (List.mem_cons_self ..)
  have hsame : sent = message :=
    hinv.unique sent hsent message hmessage (hselects.1.symm.trans hid)
  rw [← hsame]
  exact ⟨rfl, rfl⟩

/-- A statement keeps what is known about the metadata of the rows of a message
that was published before it. -/
theorem DeliveryInv.metadata_of_does {after : JobTable} {events : List Event}
    {message : Job} (hinv : DeliveryInv { world with calls := call :: world.calls })
    (hmessage : message ∈ world.messages)
    (hdoes : call.Does env world.jobs after events) :
    ∀ row ∈ after.rows, row.id = message.id → row.state ≠ .completed →
      MetadataOf message row := by
  have hold := hinv.metadata message hmessage
  cases hdoes with
  | nothing => exact hold
  | found job existing hlooksUp hfound => exact hold
  | updated statement hstatement =>
      intro row hrow hid hstate
      obtain ⟨old, hmem, rfl⟩ := Table.mem_exec.1 hrow
      by_cases hselects : statement.update.selects old
      · rw [if_pos hselects] at hid hstate ⊢
        exact hinv.metadata_set hmessage hstatement hmem hselects
          ((statement.set_id old).symm.trans hid) hstate
      · rw [if_neg hselects] at hid hstate ⊢
        exact hold old hmem hid hstate
  | inserted job after hinserts hcreated =>
      intro row hrow hid hstate
      have hinsert := createJob_eq_ok hcreated
      rcases (Table.mem_insert hinsert).1 hrow with hmem | rfl
      · exact hold row hmem hid hstate
      · obtain ⟨stored, hstored, hstoredID⟩ := hinv.stored message hmessage
        exact absurd (hstoredID.trans hid.symm)
          ((Table.insert_eq_ok hinsert).2.1 stored hstored)
  | deleted ids hcall =>
      intro row hrow
      exact hold row (Table.mem_delete.1 hrow).1

theorem callDelivery_of_leads {table : JobTable} {messages : List Job} {next : Call}
    (hcall : CallDelivery messages call) (hleads : Call.Leads env table call next) :
    CallDelivery messages next := by
  cases hleads with
  | kafkaWrite message lease hclaims hread =>
      exact ⟨message, hcall, lease, env.now, _, rfl, hclaims⟩
  | _ => trivial

theorem CallDelivery.mono {messages more : List Job} (hcall : CallDelivery messages call)
    (hmore : messages ⊆ more) : CallDelivery more call := by
  cases call with
  | kafkaClaim message lease => exact hmore hcall
  | kafkaWrite job =>
      obtain ⟨message, hmessage, hjob⟩ := hcall
      exact ⟨message, hmore hmessage, hjob⟩
  | _ => trivial

/-- A message published by a statement is that of the row it inserted. -/
theorem published_cases {message : Job}
    (hpublished : message ∈ (call.effect env world.jobs).published.toList) :
    ∃ job, message = delivered job ∧ world.jobs.insert (createRow env.storeNow job) =
      .ok (world.perform env call).jobs := by
  obtain ⟨job, -, rfl, -, hcreated⟩ := effect_published (Option.mem_toList.1 hpublished)
  exact ⟨prepareJob env job, rfl, createJob_eq_ok hcreated⟩

theorem DeliveryInv.unique_perform
    (hinv : DeliveryInv { world with calls := call :: world.calls }) :
    ∀ left ∈ (world.perform env call).messages, ∀ right ∈ (world.perform env call).messages,
      left.id = right.id → left = right := by
  have hfresh : ∀ sent ∈ world.messages,
      ∀ message ∈ (call.effect env world.jobs).published.toList, sent.id ≠ message.id := by
    intro sent hsent message hnew heq
    obtain ⟨job, rfl, hinsert⟩ := published_cases hnew
    obtain ⟨stored, hstored, hid⟩ := hinv.stored sent hsent
    exact (Table.insert_eq_ok hinsert).2.1 stored hstored (hid.trans heq)
  intro left hleft right hright hid
  rcases List.mem_append.1 hleft with hleftNew | hleftOld <;>
    rcases List.mem_append.1 hright with hrightNew | hrightOld
  · rw [Option.mem_toList] at hleftNew hrightNew
    exact Option.mem_unique hleftNew hrightNew
  · exact absurd hid.symm (hfresh right hrightOld left hleftNew)
  · exact absurd hid (hfresh left hleftOld right hrightNew)
  · exact hinv.unique left hleftOld right hrightOld hid

/-- What holds of a message and its row when it is published goes on to hold. -/
theorem DeliveryInv.message_perform
    (hinv : DeliveryInv { world with calls := call :: world.calls }) {message : Job}
    (hmessage : message ∈ (world.perform env call).messages) :
    (∃ row ∈ (world.perform env call).jobs.rows, row.id = message.id) ∧
      (message.metadata ≠ some ∅ ∧ message.task.metadata ≠ some ∅) ∧
      ∀ row ∈ (world.perform env call).jobs.rows, row.id = message.id →
        row.state ≠ .completed → MetadataOf message row := by
  have hdoes := effect_does env world.jobs call
  rcases List.mem_append.1 hmessage with hnew | hold
  · obtain ⟨job, rfl, hinsert⟩ := published_cases hnew
    refine ⟨⟨_, (Table.mem_insert hinsert).2 (.inr rfl), rfl⟩,
      ⟨omitEmpty_ne_empty _, omitEmpty_ne_empty _⟩, ?_⟩
    intro row hrow hid _
    rcases (Table.mem_insert hinsert).1 hrow with hmem | rfl
    · exact absurd hid ((Table.insert_eq_ok hinsert).2.1 row hmem)
    · exact metadataOf_createRow job env.storeNow
  · have hdelete : ∀ ids, call ≠ .deleteExec ids := by
      rintro ids rfl
      cases hinv.fencing.keeps _ (List.mem_cons_self ..)
    obtain ⟨row, hrow, hid⟩ := hinv.stored message hold
    obtain ⟨kept, hkept, hkeptID, -⟩ :=
      hdoes.persists hrow fun ids hcall => absurd hcall (hdelete ids)
    exact ⟨⟨kept, hkept, hkeptID.trans hid⟩, hinv.compact message hold,
      hinv.metadata_of_does hold hdoes⟩

theorem DeliveryInv.perform
    (hinv : DeliveryInv { world with calls := call :: world.calls })
    (hmay : LeaseCalls world env call) : DeliveryInv (world.perform env call) where
  fencing := hinv.fencing.perform hmay.1
  stored message hmessage := (hinv.message_perform hmessage).1
  unique := hinv.unique_perform
  compact message hmessage := (hinv.message_perform hmessage).2.1
  metadata message hmessage := (hinv.message_perform hmessage).2.2
  calls := by
    have hmore : world.messages ⊆ (world.perform env call).messages :=
      List.subset_append_right ..
    refine forall_mem_calls_perform (fun other hother => (hinv.calls other hother).mono hmore) ?_
    intro next hleads hcall
    exact callDelivery_of_leads hcall hleads

end Perform

theorem deliveryInv {world : World}
    (hreach : (machine EmptyTable LeaseCalls).Reachable world) : DeliveryInv world := by
  refine invariant_of_perform DeliveryInv hreach ?_ ?_ ?_ ?_
  · intro table htable
    refine ⟨.init (noLease_of_empty htable), ?_, ?_, ?_, ?_, ?_⟩ <;>
      exact fun _ hmem => by cases hmem
  · intro world calls hcalls hinv
    exact ⟨hinv.fencing.subperm hcalls, hinv.stored, hinv.unique, hinv.compact, hinv.metadata,
      fun call hcall => hinv.calls call (hcalls.subset hcall)⟩
  · intro world env call hstarts hmay hinv
    refine ⟨hinv.fencing.issue hstarts hmay, hinv.stored, hinv.unique, hinv.compact,
      hinv.metadata, List.forall_mem_cons.2 ⟨?_, hinv.calls⟩⟩
    have hinitial := hstarts.initial
    cases call with
    | kafkaClaim message lease => exact hstarts.published message lease rfl
    | kafkaWrite job => cases hinitial
    | _ => trivial
  · intro world env call hmay hinv
    exact hinv.perform hmay

/-! ## When a delivery is harmless -/

/-- Every delivery whose claim succeeds is like a claim. -/
def RedeliveryHarmless : Prop :=
  ∀ world job row updatedAt, (machine EmptyTable LeaseCalls).Reachable world →
    .kafkaWrite job ∈ world.calls → row ∈ world.jobs.rows →
    (Statement.updateJob job updatedAt).Selects row →
      LikeClaim job row ((Statement.updateJob job updatedAt).set row)

section Delivery

variable {world : World} {job : Job} {row : Row} {updatedAt : ℤ}

theorem likeClaim_iff (hinv : DeliveryInv world) (hok : WorldOk world)
    (hcall : .kafkaWrite job ∈ world.calls) (hmem : row ∈ world.jobs.rows)
    (hselects : (Statement.updateJob job updatedAt).Selects row) :
    LikeClaim job row ((Statement.updateJob job updatedAt).set row) ↔
      SnapshotCurrent job row := by
  obtain ⟨hpending, hfree, hstate⟩ :=
    hinv.fencing.tokens.pending_of_kafkaWrite hcall hmem hselects
  obtain ⟨message, hmessage, lease, now, leaseToken, rfl, hclaims⟩ := hinv.calls _ hcall
  have hcompact := hinv.compact message hmessage
  have hcolumns := hinv.metadata message hmessage row hmem hselects.1 (by simp [hpending])
  have hmetadata := hcolumns.metadata.marshalMap_eq_iff hcompact.1
  have htaskMetadata := hcolumns.taskMetadata.marshalMap_eq_iff hcompact.2
  have hnonempty : leaseToken ≠ "" := (hinv.fencing.tokens.calls _ hcall).2.1
  have huncompleted : message.completedAt.map timestamptz = row.completedAt := by
    rw [(hok.messages message hmessage).completedAt,
      (hok.rows row hmem).uncompleted (.inl hpending)]
    rfl
  constructor
  · rintro ⟨claimedAt, -, expires, -, -, -, hafter⟩
    exact ⟨congrArg Row.attempt hafter, congrArg Row.lastError hafter,
      congrArg Row.scheduledAt hafter, congrArg Row.taskRetryCount hafter,
      hmetadata.1 (congrArg Row.metadata hafter),
      htaskMetadata.1 (congrArg Row.taskMetadata hafter)⟩
  · intro hcurrent
    refine ⟨now, rfl, _, rfl, hpending, ?_, ?_⟩
    · -- the stored instant is the message's, which `Run` has waited out
      intro scheduledAt hscheduled
      rw [← hcurrent.scheduledAt] at hscheduled
      obtain ⟨instant, hinstant, rfl⟩ := Option.mem_map.1 hscheduled
      exact (timestamptz_le instant).trans (hclaims.1 instant hinstant)
    · have hattempt := hcurrent.attempt
      have hlastError := hcurrent.lastError
      have hscheduled := hcurrent.scheduledAt
      have hretry := hcurrent.retryCount
      have hcolumn := hmetadata.2 hcurrent.metadata
      have htaskColumn := htaskMetadata.2 hcurrent.taskMetadata
      simp_all [Statement.set, claimMessage]

end Delivery

/-- Runs on the Kafka transport in which every claim that succeeds finds its
snapshot current. -/
def CurrentSnapshots (world : World) (env : Env) (call : Call) : Prop :=
  LeaseCalls world env call ∧ UnforeseenToken world env call ∧
    match call with
    | .failClaimedJob .. => False
    | .fail _ leaseToken _ _ => ∀ written, .kafkaWrite written ∈ world.calls →
        written.leaseToken ≠ leaseToken
    | .kafkaWrite job => ∀ row ∈ world.jobs.rows,
        (Statement.updateJob job env.storeNow).Selects row → SnapshotCurrent job row
    | _ => True

theorem budgetCalls_of_currentSnapshots {world : World} {env : Env} {call : Call}
    (hmay : CurrentSnapshots world env call) : BudgetCalls world env call := by
  obtain ⟨hlease, hunforeseen, hallowed⟩ := hmay
  refine ⟨hlease, hunforeseen, ?_⟩
  cases call with
  | kafkaWrite job => exact fun row hrow hselects => (hallowed row hrow hselects).attempt
  | _ => exact hallowed

theorem worldOk_of_leaseCalls {world : World}
    (hreach : (machine EmptyTable LeaseCalls).Reachable world) : WorldOk world := by
  apply worldOk
  apply reachable_mono (fun _ => True) hreach
  · exact fun _ _ _ _ => trivial
  · exact fun _ htable => htable
  · intro world env call _ hmay
    have hlease := hmay.2
    cases call with
    | enqueue job => exact hlease
    | _ => trivial

/-- A delivery claims the row the way `ClaimNextJob` would exactly when its
snapshot is current; and as long as every Kafka claim finds its snapshot
current, the retry budget holds as on the Postgres transport. -/
theorem kafka_claim_like_claim_iff {world : World} {row : Row}
    (hmem : row ∈ world.jobs.rows) :
    ((machine EmptyTable LeaseCalls).Reachable world → ∀ job updatedAt,
      .kafkaWrite job ∈ world.calls → (Statement.updateJob job updatedAt).Selects row →
        (LikeClaim job row ((Statement.updateJob job updatedAt).set row) ↔
          SnapshotCurrent job row)) ∧
    ((machine EmptyTable CurrentSnapshots).Reachable world →
      BudgetOk (eventsOf world.history row.id) row) := by
  constructor
  · intro hreach job updatedAt hcall hselects
    exact likeClaim_iff (deliveryInv hreach) (worldOk_of_leaseCalls hreach) hcall hmem
      hselects
  · intro hreach
    have hbudget := budgetInv (reachable_mono (fun _ => True) hreach
      (fun _ _ _ _ => trivial) (fun _ htable => htable)
      fun _ _ _ _ => budgetCalls_of_currentSnapshots)
    exact hbudget.rows.present row hmem

/-! ## A redelivery that is not -/

/-- The message `Enqueue` publishes for `plainJob`. -/
def plainMessage : Job :=
  delivered (prepareJob (plainEnv 1 0 "job-1") plainJob)

/-- The job is claimed and fails once, which defers it by a minute; a second
later its message is delivered again. -/
def redeliveryRun : List Label :=
  [.issue (plainEnv 1 0 "job-1") (.enqueue plainJob),
    .issue (plainEnv 1 second "") (.claimNextJob minute ⟨anyTenant, [], []⟩),
    .issue (plainEnv 1 second "")
      (.fail "job-1" (newLeaseToken fun _ => 1) "boom" false),
    .resume (plainEnv 1 second "") 0,
    .issue (plainEnv 2 (2 * second) "") (.kafkaClaim plainMessage minute)]

def redeliveryWorld : World :=
  (machine EmptyTable LeaseCalls).run emptyWorld redeliveryRun

theorem reachable_redeliveryWorld :
    (machine EmptyTable LeaseCalls).Reachable redeliveryWorld := by
  have hstart : (machine EmptyTable LeaseCalls).Reachable emptyWorld :=
    .start ⟨rfl, rfl, rfl, rfl, rfl⟩
  refine hstart.run ⟨⟨⟨rfl, ?_⟩, ?_, fromCaller_plainJob⟩, ⟨⟨rfl, ?_⟩, ?_, trivial⟩,
    ⟨⟨rfl, ?_⟩, ?_, trivial⟩, ?_, ⟨⟨rfl, ?_⟩, ?_, trivial⟩, trivial⟩
  · rintro message lease ⟨⟩
  · rintro ⟨⟩
  · rintro message lease ⟨⟩
  · intro _
    decide +kernel
  · rintro message lease ⟨⟩
  · rintro ⟨⟩
  · have hcontinues : ((machine EmptyTable LeaseCalls).run emptyWorld
        (redeliveryRun.take 3)).calls[0]?.all Call.continues = true := by decide +kernel
    intro call hcall
    exact leaseCalls_of_continues ((Option.all_eq_true _ _).1 hcontinues call hcall)
  · rintro message lease ⟨⟩
    decide +kernel
  · intro _
    decide +kernel

/-- The job the redelivered message writes. -/
def redeliveredJob : Job :=
  claimMessage minute (2 * second) (newLeaseToken fun _ => 2) plainMessage

/-- The row it is written over: pending, with one attempt spent, and not due
before a minute after the failure. -/
def deferredRow : Row :=
  let created := createRow 0 (prepareJob (plainEnv 1 0 "job-1") plainJob)
  { created with
    attempt := 1
    lastError := "boom"
    scheduledAt := some (second + minute)
    updatedAt := second }

/-- The claim of the redelivered message succeeds on a row that is not due. -/
theorem not_redeliveryHarmless : ¬ RedeliveryHarmless := by
  intro hharmless
  have hcall : .kafkaWrite redeliveredJob ∈ redeliveryWorld.calls := by decide +kernel
  have hrow : deferredRow ∈ redeliveryWorld.jobs.rows := by decide +kernel
  have hselects : (Statement.updateJob redeliveredJob 0).Selects deferredRow := by
    decide +kernel
  obtain ⟨now, hnow, -, -, -, hdue, -⟩ := hharmless redeliveryWorld redeliveredJob deferredRow
    0 reachable_redeliveryWorld hcall hrow hselects
  have hnow : now = 2 * second := (Option.some.inj hnow).symm
  have hlate := hdue (second + minute) rfl
  rw [hnow] at hlate
  exact absurd hlate (by decide)

/-- The first delivery of the message, before anything happened to the row. -/
def firstDelivery : World :=
  (machine EmptyTable LeaseCalls).run emptyWorld
    [.issue (plainEnv 1 0 "job-1") (.enqueue plainJob),
      .issue (plainEnv 2 (2 * second) "") (.kafkaClaim plainMessage minute)]

theorem reachable_firstDelivery :
    (machine EmptyTable LeaseCalls).Reachable firstDelivery := by
  have hstart : (machine EmptyTable LeaseCalls).Reachable emptyWorld :=
    .start ⟨rfl, rfl, rfl, rfl, rfl⟩
  refine hstart.run ⟨⟨⟨rfl, ?_⟩, ?_, fromCaller_plainJob⟩, ⟨⟨rfl, ?_⟩, ?_, trivial⟩, trivial⟩
  · rintro message lease ⟨⟩
  · rintro ⟨⟩
  · rintro message lease ⟨⟩
    decide +kernel
  · intro _
    decide +kernel

theorem kafka_claim_like_claim_firstDelivery :
    LikeClaim redeliveredJob (createRow 0 (prepareJob (plainEnv 1 0 "job-1") plainJob))
        ((Statement.updateJob redeliveredJob 0).set
          (createRow 0 (prepareJob (plainEnv 1 0 "job-1") plainJob))) ∧
      ((machine EmptyTable CurrentSnapshots).run emptyWorld claimedRun).jobs.rows.map
        Row.attempt = [1] ∧
      ∀ row ∈ ((machine EmptyTable CurrentSnapshots).run emptyWorld claimedRun).jobs.rows,
        BudgetOk (eventsOf ((machine EmptyTable CurrentSnapshots).run emptyWorld
          claimedRun).history row.id) row := by
  have hstart : (machine EmptyTable CurrentSnapshots).Reachable emptyWorld :=
    .start ⟨rfl, rfl, rfl, rfl, rfl⟩
  have hreach := hstart.run (allowedRun_claimedRun
    ⟨⟨freshToken_claimedRun.1, fromCaller_plainJob⟩, unforeseenToken_claimedRun.1, trivial⟩
    ⟨⟨freshToken_claimedRun.2, trivial⟩, unforeseenToken_claimedRun.2, trivial⟩)
  refine ⟨?_, by decide +kernel, ?_⟩
  · have hmem : createRow 0 (prepareJob (plainEnv 1 0 "job-1") plainJob) ∈
        firstDelivery.jobs.rows := by
      decide +kernel
    have hiff := (kafka_claim_like_claim_iff hmem).1 reachable_firstDelivery
      redeliveredJob 0 (by decide +kernel) (by decide +kernel)
    apply hiff.2
    constructor
    all_goals decide +kernel
  · intro row hrow
    exact (kafka_claim_like_claim_iff hrow).2 hreach

end Conduit.KafkaRedelivery
