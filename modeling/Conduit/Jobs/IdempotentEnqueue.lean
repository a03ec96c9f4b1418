import Conduit.Jobs.Machine

/-!
# Enqueue is idempotent

`Enqueue` looks its idempotency key up, inserts, and looks the key up again when
the unique index refused the insert.  Two calls for one key can both miss at the
first lookup.  Whatever is interleaved with them, as long as no row is deleted,
all of them answer with the id of one row, and one of them at most inserted it.
-/

namespace Conduit.IdempotentEnqueue

open Models Relational JobStore JobService JobWorker JobCalls JobMachine Transition

/-! ## Calls for a key -/

/-- No statement deletes a row. -/
def DeletesNothing (world : World) (_ : Env) (call : Call) : Prop :=
  ∀ ids, call = .deleteExec ids → ∀ row ∈ world.jobs.rows, row.id ∉ ids

def AnyTable (_ : JobTable) : Prop := True

def HasKey (tenant key : String) (row : Row) : Prop :=
  row.tenantID = tenant ∧ row.idempotencyKey = some key

/-- The job an `Enqueue` under way is for. -/
def enqueues : Call → Option Job
  | .enqueue job => some (withTenant job)
  | .enqueueInsert job | .enqueueRelookup job => some job
  | _ => none

/-- An `Enqueue` for the key has returned the id. -/
def Returned (history : List Event) (tenant key id : String) : Prop :=
  ∃ inserted published, .enqueued tenant key id inserted published ∈ history

/-- The event of an `Enqueue` for the key that inserted. -/
def insertedFor (tenant key : String) : Event → Bool
  | .enqueued tenant' key' _ inserted _ => tenant' = tenant ∧ key' = key ∧ inserted = true
  | _ => false

def messageFor (tenant key : String) (message : Job) : Bool :=
  message.tenantID = tenant ∧ message.idempotencyKey = key

section Lookup

variable {table table' : JobTable} {tenant key : String}

theorem HasKey.index {row : Row} (hrow : HasKey tenant key row) :
    jobs.index row = some (tenant, key) := by
  obtain ⟨htenant, hkey⟩ := hrow
  simp [jobs, htenant, hkey]

theorem HasKey.unique {left right : Row} (hleft : left ∈ table.rows)
    (hright : right ∈ table.rows) (hleftKey : HasKey tenant key left)
    (hrightKey : HasKey tenant key right) : left = right :=
  table.index_unique hleft hright hleftKey.index hrightKey.index

theorem hasKey_createRow {now : ℤ} {job : Job} (hkey : job.idempotencyKey ≠ "") :
    HasKey job.tenantID job.idempotencyKey (createRow now job) := by
  refine ⟨rfl, ?_⟩
  simp [createRow, hkey]

/-- An insert under a key finds no row under it. -/
theorem not_hasKey_of_createJob {now : ℤ} {job : Job} (hkey : job.idempotencyKey ≠ "")
    (hcreate : createJob table now job = .ok table') {row : Row}
    (hrow : row ∈ table.rows) : ¬ HasKey job.tenantID job.idempotencyKey row := by
  intro hhas
  rcases (Table.insert_eq_ok (createJob_eq_ok hcreate)).2.2 row hrow with hnone | hne
  · rw [hhas.index] at hnone
    cases hnone
  · rw [hhas.index, (hasKey_createRow hkey).index] at hne
    exact hne rfl

end Lookup

/-! ## What a statement records -/

section Records

variable {env : Env} {table : JobTable} {call : Call}

/-- Every id an `Enqueue` answers with is recorded, with its key. -/
theorem returned_of_reply {job : Job} {id : String} (hcall : enqueues call = some job)
    (hreply : (call.effect env table).reply = some (.id id)) :
    Returned (call.effect env table).events job.tenantID job.idempotencyKey id := by
  have hinsert : ∀ job : Job, (enqueueInsertEffect env table job).reply = some (.id id) →
      Returned (enqueueInsertEffect env table job).events job.tenantID
        job.idempotencyKey id := by
    intro job hreply
    rw [enqueueInsertEffect] at hreply ⊢
    rcases hcreate : createJob table env.storeNow (prepareJob env job) with err | inserted
    · simp only [hcreate] at hreply
      split at hreply <;> cases hreply
    · simp only [hcreate] at hreply ⊢
      cases hreply
      exact ⟨_, _, List.mem_cons_self ..⟩
  have hlookup : ∀ (job : Job) (missed : Option Call),
      (enqueueLookupEffect table job missed).reply = some (.id id) →
        Returned (enqueueLookupEffect table job missed).events job.tenantID
          job.idempotencyKey id := by
    intro job missed hreply
    rw [enqueueLookupEffect] at hreply ⊢
    split at hreply
    · cases hreply
      exact ⟨_, _, List.mem_cons_self ..⟩
    · split at hreply <;> cases hreply
  cases call with
  | enqueue requested =>
      cases hcall
      simp only [Call.effect] at hreply ⊢
      split at hreply
      · rename_i hkey
        rw [if_pos hkey]
        exact hinsert _ hreply
      · rename_i hkey
        rw [if_neg hkey]
        exact hlookup _ _ hreply
  | enqueueInsert requested =>
      cases hcall
      exact hinsert _ hreply
  | enqueueRelookup requested =>
      cases hcall
      exact hlookup _ _ hreply
  | _ => cases hcall

theorem enqueues_of_looksUp {job : Job} (hcall : call.LooksUp job) :
    enqueues call = some job := by
  rcases hcall with rfl | ⟨requested, rfl, rfl, -⟩
  · rfl
  · rfl

theorem enqueues_of_inserts {job : Job} (hcall : call.Inserts job) :
    enqueues call = some job := by
  rcases hcall with rfl | ⟨requested, rfl, rfl, -⟩
  · rfl
  · rfl

/-- An `Enqueue` keeps its tenant and its key from statement to statement. -/
theorem enqueues_next {job : Job} {next : Call} (hcall : enqueues call = some job)
    (hnext : (call.effect env table).next = some next) :
    ∃ later, enqueues next = some later ∧ later.tenantID = job.tenantID ∧
      later.idempotencyKey = job.idempotencyKey := by
  cases effect_leads hnext with
  | enqueueInsert requested hkey =>
      cases hcall
      exact ⟨withTenant requested, rfl, rfl, rfl⟩
  | enqueueRelookup call inserted hinserts hkey =>
      rw [enqueues_of_inserts hinserts] at hcall
      cases hcall
      exact ⟨_, rfl, rfl, rfl⟩
  | recheck call tenant id hrechecked =>
      rcases hrechecked with rfl | rfl
      · cases hcall
      · cases hcall
  | _ => cases hcall

/-- Only the insert and the lookups of `Enqueue` record a returned id. -/
theorem enqueued_notMem_flatMap {rows : List Row} {statement : Statement}
    {tenant key id : String} {inserted published : Bool} :
    .enqueued tenant key id inserted published ∉
      rows.flatMap (statementEvents statement) := by
  intro hevent
  obtain ⟨row, -, hemitted⟩ := List.mem_flatMap.1 hevent
  have habout := eventJob_of_mem_statementEvents hemitted
  rw [eventJob] at habout
  cases habout

/-- The returned ids a statement records are those of its own `Enqueue`. -/
theorem enqueues_of_returned {after : JobTable} {events : List Event}
    (hdoes : call.Does env table after events) {tenant key id : String}
    (hreturned : Returned events tenant key id) :
    ∃ job, enqueues call = some job ∧ job.tenantID = tenant ∧ job.idempotencyKey = key := by
  obtain ⟨inserted, published, hevent⟩ := hreturned
  cases hdoes with
  | nothing | deleted => cases hevent
  | updated statement hstatement => exact absurd hevent enqueued_notMem_flatMap
  | found job existing hcall hfound =>
      cases List.mem_singleton.1 hevent
      exact ⟨job, enqueues_of_looksUp hcall, rfl, rfl⟩
  | inserted job after hcall hcreate =>
      rcases List.mem_cons.1 hevent with henqueued | hcreated
      · cases henqueued
        exact ⟨job, enqueues_of_inserts hcall, rfl, rfl⟩
      · cases List.mem_singleton.1 hcreated

theorem returned_of_countP {events : List Event} {tenant key : String}
    (hcount : events.countP (insertedFor tenant key) ≠ 0) :
    ∃ id, Returned events tenant key id := by
  obtain ⟨event, hevent, hinserted⟩ :=
    List.countP_pos_iff.1 (Nat.pos_of_ne_zero hcount)
  cases event with
  | enqueued tenant' key' id inserted published =>
      simp only [insertedFor, decide_eq_true_eq] at hinserted
      obtain ⟨rfl, rfl, rfl⟩ := hinserted
      exact ⟨id, true, published, hevent⟩
  | _ => cases hinserted

/-- The id an `Enqueue` returns is that of a row under its key. -/
theorem hasKey_of_returned {after : JobTable} {events : List Event}
    (hdoes : call.Does env table after events)
    (htenant : ∀ job, enqueues call = some job → job.tenantID ≠ "")
    {tenant key id : String} (hkey : key ≠ "") (hreturned : Returned events tenant key id) :
    ∃ row ∈ after.rows, HasKey tenant key row ∧ row.id = id := by
  obtain ⟨inserted, published, hevent⟩ := hreturned
  cases hdoes with
  | nothing | deleted => cases hevent
  | updated statement hstatement => exact absurd hevent enqueued_notMem_flatMap
  | found job existing hcall hfound =>
      cases List.mem_singleton.1 hevent
      obtain ⟨row, hrow, hrowKey, hrowTenant, rfl⟩ := getJobByIdempotencyKey_eq_ok hfound
      have hne := htenant job (enqueues_of_looksUp hcall)
      exact ⟨row, hrow, ⟨hrowTenant.resolve_left hne, hrowKey⟩, rfl⟩
  | inserted job after hcall hcreate =>
      have hrow := (Table.mem_insert (createJob_eq_ok hcreate)).2 (.inr rfl)
      rcases List.mem_cons.1 hevent with henqueued | hcreated
      · cases henqueued
        exact ⟨_, hrow, hasKey_createRow hkey, rfl⟩
      · cases List.mem_singleton.1 hcreated

/-- An `Enqueue` inserts only when no row is under its key. -/
theorem countP_insertedFor_events {after : JobTable} {events : List Event}
    (hdoes : call.Does env table after events) {tenant key : String} (hkey : key ≠ "") :
    events.countP (insertedFor tenant key) = 0 ∨
      (events.countP (insertedFor tenant key) = 1 ∧
        ∀ row ∈ table.rows, ¬ HasKey tenant key row) := by
  cases hdoes with
  | nothing | deleted => exact .inl rfl
  | found job existing hcall hfound => exact .inl (by simp [insertedFor])
  | updated statement hstatement =>
      left
      rw [List.countP_eq_zero]
      intro event hevent hinserted
      cases event with
      | enqueued => exact enqueued_notMem_flatMap hevent
      | _ => cases hinserted
  | inserted job after hcall hcreate =>
      by_cases hsame : (prepareJob env job).tenantID = tenant ∧
          (prepareJob env job).idempotencyKey = key
      · right
        obtain ⟨rfl, rfl⟩ := hsame
        constructor
        · simp [insertedFor]
        · intro row hrow
          exact not_hasKey_of_createJob hkey hcreate hrow
      · left
        simp only [insertedFor, List.countP_cons, List.countP_nil]
        simp only [not_and] at hsame
        grind

/-- An `Enqueue` that runs without interruption and returns an id leaves a row
under its key that has the id. -/
theorem hasKey_of_run {statements : ℕ} {job : Job} {id : String} {after : JobTable}
    (hcall : enqueues call = some job) (htenant : job.tenantID ≠ "")
    (hkey : job.idempotencyKey ≠ "")
    (hrun : call.run env statements table = (some (.id id), after)) :
    ∃ row ∈ after.rows, HasKey job.tenantID job.idempotencyKey row ∧ row.id = id := by
  induction statements generalizing table call job with
  | zero => cases hrun
  | succ statements ih =>
      rw [Call.run] at hrun
      rcases hnext : (call.effect env table).next with _ | next
      · simp only [hnext, Prod.mk.injEq] at hrun
        obtain ⟨hreply, rfl⟩ := hrun
        apply hasKey_of_returned (effect_does env table call) ?_ hkey
          (returned_of_reply hcall hreply)
        intro other hother
        rw [hcall] at hother
        cases hother
        exact htenant
      · simp only [hnext] at hrun
        obtain ⟨later, hlater, hlaterTenant, hlaterKey⟩ := enqueues_next hcall hnext
        rw [← hlaterTenant] at htenant ⊢
        rw [← hlaterKey] at hkey ⊢
        exact ih hlater htenant hkey hrun

end Records

/-! ## The invariant -/

/-- What returned or was published under a key belongs to the row under it, and
inserting and publishing happened once at most. -/
structure KeyInv (world : World) : Prop where
  tenants : ∀ call ∈ world.calls, ∀ job, enqueues call = some job → job.tenantID ≠ ""
  returned : ∀ tenant key id, key ≠ "" → Returned world.history tenant key id →
    ∃ row ∈ world.jobs.rows, HasKey tenant key row ∧ row.id = id
  published : ∀ message ∈ world.messages, message.idempotencyKey ≠ "" →
    ∃ row ∈ world.jobs.rows, HasKey message.tenantID message.idempotencyKey row
  insertsOnce : ∀ tenant key, key ≠ "" →
    world.history.countP (insertedFor tenant key) ≤ 1
  publishesOnce : ∀ tenant key, key ≠ "" →
    world.messages.countP (messageFor tenant key) ≤ 1

section Step

variable {world : World} {env : Env} {call : Call}

/-- A key that has a row keeps it. -/
theorem hasKey_perform (hmay : DeletesNothing world env call) {tenant key : String}
    {row : Row} (hrow : row ∈ world.jobs.rows) (hhas : HasKey tenant key row) :
    ∃ later ∈ (world.perform env call).jobs.rows,
      HasKey tenant key later ∧ later.id = row.id := by
  have hdoes := effect_does env world.jobs call
  obtain ⟨later, hlater, hid, htenant, hkey⟩ := hdoes.persists hrow
    (fun ids hcall => hmay ids hcall row hrow)
  exact ⟨later, hlater, ⟨htenant.trans hhas.1, hkey.trans hhas.2⟩, hid⟩

theorem KeyInv.tenants_perform
    (hinv : KeyInv { world with calls := call :: world.calls }) :
    ∀ other ∈ (world.perform env call).calls, ∀ job, enqueues other = some job →
      job.tenantID ≠ "" := by
  refine forall_mem_calls_perform hinv.tenants ?_
  intro next hleads hcall job hjob
  cases hleads with
  | enqueueInsert requested hkey =>
      cases hjob
      exact withTenant_ne_empty requested
  | enqueueRelookup call inserted hinserts hkey =>
      cases hjob
      exact hcall inserted (enqueues_of_inserts hinserts)
  | _ => cases hjob

theorem KeyInv.returned_perform (hmay : DeletesNothing world env call)
    (hinv : KeyInv { world with calls := call :: world.calls }) {tenant key id : String}
    (hkey : key ≠ "") (hreturned : Returned (world.perform env call).history tenant key id) :
    ∃ row ∈ (world.perform env call).jobs.rows, HasKey tenant key row ∧ row.id = id := by
  obtain ⟨inserted, published, hevent⟩ := hreturned
  rcases List.mem_append.1 hevent with hnew | hold
  · exact hasKey_of_returned (effect_does env world.jobs call)
      (hinv.tenants call (List.mem_cons_self ..)) hkey ⟨inserted, published, hnew⟩
  · obtain ⟨row, hrow, hhas, hid⟩ := hinv.returned tenant key id hkey ⟨inserted, published, hold⟩
    obtain ⟨later, hlater, hlaterHas, hlaterID⟩ := hasKey_perform hmay hrow hhas
    exact ⟨later, hlater, hlaterHas, hlaterID.trans hid⟩

theorem KeyInv.published_perform (hmay : DeletesNothing world env call)
    (hinv : KeyInv { world with calls := call :: world.calls }) :
    ∀ message ∈ (world.perform env call).messages, message.idempotencyKey ≠ "" →
      ∃ row ∈ (world.perform env call).jobs.rows,
        HasKey message.tenantID message.idempotencyKey row := by
  intro message hmessage hkey
  rcases List.mem_append.1 hmessage with hnew | hold
  · rw [Option.mem_toList] at hnew
    obtain ⟨job, -, rfl, -, hcreate⟩ := effect_published hnew
    have hrow := (Table.mem_insert (createJob_eq_ok hcreate)).2 (.inr rfl)
    exact ⟨_, hrow, hasKey_createRow hkey⟩
  · obtain ⟨row, hrow, hhas⟩ := hinv.published message hold hkey
    obtain ⟨later, hlater, hlaterHas, -⟩ := hasKey_perform hmay hrow hhas
    exact ⟨later, hlater, hlaterHas⟩

theorem KeyInv.insertsOnce_perform
    (hinv : KeyInv { world with calls := call :: world.calls }) {tenant key : String}
    (hkey : key ≠ "") :
    (world.perform env call).history.countP (insertedFor tenant key) ≤ 1 := by
  have hold := hinv.insertsOnce tenant key hkey
  change ((call.effect env world.jobs).events ++ world.history).countP _ ≤ 1
  rw [List.countP_append]
  rcases countP_insertedFor_events (effect_does env world.jobs call) hkey with
    hnone | ⟨hone, hfree⟩
  · rw [hnone, Nat.zero_add]
    exact hold
  · -- Nothing was under the key, so no call for it has returned yet.
    have hzero : world.history.countP (insertedFor tenant key) = 0 := by
      by_contra hcount
      obtain ⟨id, hreturned⟩ := returned_of_countP hcount
      obtain ⟨row, hrow, hhas, -⟩ := hinv.returned tenant key id hkey hreturned
      exact hfree row hrow hhas
    rw [hone, hzero]

theorem KeyInv.publishesOnce_perform
    (hinv : KeyInv { world with calls := call :: world.calls }) {tenant key : String}
    (hkey : key ≠ "") :
    (world.perform env call).messages.countP (messageFor tenant key) ≤ 1 := by
  have hold := hinv.publishesOnce tenant key hkey
  change ((call.effect env world.jobs).published.toList ++ world.messages).countP _ ≤ 1
  rcases hpublished : (call.effect env world.jobs).published with _ | message
  · exact hold
  · rw [Option.toList_some, List.singleton_append, List.countP_cons]
    split
    · rename_i hmessage
      simp only [messageFor, decide_eq_true_eq] at hmessage
      obtain ⟨job, -, rfl, -, hcreate⟩ := effect_published hpublished
      obtain ⟨rfl, rfl⟩ := hmessage
      have hzero : world.messages.countP (messageFor (prepareJob env job).tenantID
          (prepareJob env job).idempotencyKey) = 0 := by
        rw [List.countP_eq_zero]
        intro other hother hsame
        simp only [messageFor, decide_eq_true_eq] at hsame
        have hotherKey : other.idempotencyKey ≠ "" := by
          rw [hsame.2]
          exact hkey
        obtain ⟨row, hrow, hhas⟩ := hinv.published other hother hotherKey
        rw [hsame.1, hsame.2] at hhas
        have hpreparedKey : (prepareJob env job).idempotencyKey ≠ "" := hkey
        exact not_hasKey_of_createJob hpreparedKey hcreate hrow hhas
      exact le_of_eq (Nat.add_eq_right.2 hzero)
    · exact hold

theorem KeyInv.perform (hmay : DeletesNothing world env call)
    (hinv : KeyInv { world with calls := call :: world.calls }) :
    KeyInv (world.perform env call) where
  tenants := hinv.tenants_perform
  returned _ _ _ hkey hreturned := hinv.returned_perform hmay hkey hreturned
  published := hinv.published_perform hmay
  insertsOnce _ _ hkey := hinv.insertsOnce_perform hkey
  publishesOnce _ _ hkey := hinv.publishesOnce_perform hkey

end Step

theorem keyInv {world : World} (hreach : (machine AnyTable DeletesNothing).Reachable world) :
    KeyInv world := by
  refine invariant_of_perform KeyInv hreach ?_ ?_ ?_ ?_
  · intro table _
    constructor
    · intro call hcall
      cases hcall
    · rintro tenant key id - ⟨inserted, published, hevent⟩
      cases hevent
    · intro message hmessage
      cases hmessage
    · intro tenant key _
      exact Nat.zero_le 1
    · intro tenant key _
      exact Nat.zero_le 1
  · intro world calls hsubperm hinv
    exact { hinv with
      tenants := fun call hcall => hinv.tenants call (hsubperm.subset hcall) }
  · intro world env call hstarts _ hinv
    refine { hinv with tenants := ?_ }
    intro other hother job hjob
    rcases List.mem_cons.1 hother with rfl | hold
    · have hinitial := hstarts.initial
      cases other with
      | enqueue requested =>
          cases hjob
          exact withTenant_ne_empty requested
      | enqueueInsert | enqueueRelookup => cases hinitial
      | _ => cases hjob
    · exact hinv.tenants other hold job hjob
  · intro world env call hmay hinv
    exact hinv.perform hmay

/-- A row under a key is under it for the rest of the run. -/
theorem hasKey_run {tenant key : String} {labels : List Label} {world : World}
    (hallowed : (machine AnyTable DeletesNothing).AllowedRun world labels) {row : Row}
    (hrow : row ∈ world.jobs.rows) (hhas : HasKey tenant key row) :
    ∃ later ∈ ((machine AnyTable DeletesNothing).run world labels).jobs.rows,
      HasKey tenant key later ∧ later.id = row.id := by
  induction labels generalizing world row with
  | nil => exact ⟨row, hrow, hhas, rfl⟩
  | cons label labels ih =>
      have hstep : ∃ next ∈ (world.step label).jobs.rows,
          HasKey tenant key next ∧ next.id = row.id := by
        rcases step_cases hallowed.1 with ⟨env, call, -, hmay, hstep⟩ |
          ⟨env, call, calls, -, hmay, hstep⟩ | ⟨calls, -, hstep⟩
        · rw [hstep]
          exact hasKey_perform hmay hrow hhas
        · rw [hstep]
          exact hasKey_perform hmay hrow hhas
        · rw [hstep]
          exact ⟨row, hrow, hhas, rfl⟩
      obtain ⟨next, hnext, hnextHas, hnextID⟩ := hstep
      obtain ⟨later, hlater, hlaterHas, hlaterID⟩ := ih hallowed.2 hnext hnextHas
      exact ⟨later, hlater, hlaterHas, hlaterID.trans hnextID⟩

/-- Whatever the interleaving, all calls of `Enqueue` for one key answer with the
id of the one row under it, and at most one of them inserts and publishes. -/
theorem enqueue_idempotent {world : World}
    (hreach : (machine AnyTable DeletesNothing).Reachable world) {tenant key : String}
    (hkey : key ≠ "") :
    (∀ labels, (machine AnyTable DeletesNothing).AllowedRun world labels →
      ∀ row ∈ world.jobs.rows,
      ∀ later ∈ ((machine AnyTable DeletesNothing).run world labels).jobs.rows,
        HasKey tenant key row → HasKey tenant key later → later.id = row.id) ∧
    (∀ env call job id, enqueues call = some job → job.tenantID = tenant →
      job.idempotencyKey = key → (call.effect env world.jobs).reply = some (.id id) →
      Returned (world.perform env call).history tenant key id) ∧
    (∀ id, Returned world.history tenant key id →
      ∃ row ∈ world.jobs.rows, HasKey tenant key row ∧ row.id = id) ∧
    world.history.countP (insertedFor tenant key) ≤ 1 ∧
    world.messages.countP (messageFor tenant key) ≤ 1 ∧
    (∀ other id, other ≠ tenant → Returned world.history other key id →
      ∀ row ∈ world.jobs.rows, HasKey tenant key row → row.id ≠ id) := by
  have hinv := keyInv hreach
  refine ⟨?_, ?_, ?_, hinv.insertsOnce tenant key hkey, hinv.publishesOnce tenant key hkey, ?_⟩
  · intro labels hallowed row hrow later hlater hhas hlaterHas
    obtain ⟨kept, hkept, hkeptHas, hkeptID⟩ := hasKey_run hallowed hrow hhas
    rw [hlaterHas.unique hlater hkept hkeptHas]
    exact hkeptID
  · rintro env call job id hcall rfl rfl hreply
    obtain ⟨inserted, published, hevent⟩ := returned_of_reply hcall hreply
    exact ⟨inserted, published, List.mem_append_left _ hevent⟩
  · intro id hreturned
    exact hinv.returned tenant key id hkey hreturned
  · intro other id hother hreturned row hrow hhas hid
    obtain ⟨foreign, hforeign, hforeignHas, hforeignID⟩ :=
      hinv.returned other key id hkey hreturned
    have hsame : foreign = row := world.jobs.key_unique hforeign hrow (hforeignID.trans hid.symm)
    rw [← hforeignHas.1, hsame] at hother
    exact hother hhas.1

/-! ## A race -/

/-- Two calls for one key both miss at their first lookup; the second is refused
by the index and looks the key up again. -/
def racingRun : List Label :=
  [.issue (plainEnv 1 0 "") (.enqueue { plainJob with idempotencyKey := "daily" }),
    .issue (plainEnv 1 0 "") (.enqueue { plainJob with idempotencyKey := "daily" }),
    .resume (plainEnv 1 0 "job-1") 0,
    .resume (plainEnv 1 0 "job-2") 0,
    .resume (plainEnv 1 0 "") 0]

theorem deletesNothing_of_enqueues {world : World} {env : Env} {call : Call}
    (hcall : (enqueues call).isSome = true) : DeletesNothing world env call := by
  rintro ids rfl
  cases hcall

theorem allowed_resume_of_enqueues {world : World} {env : Env} {index : ℕ}
    (hcalls : (world.calls[index]?).all (fun call => (enqueues call).isSome) = true) :
    (machine AnyTable DeletesNothing).Allowed world (.resume env index) := by
  intro call hcall
  rw [Option.mem_def.1 hcall, Option.all_some] at hcalls
  exact deletesNothing_of_enqueues hcalls

theorem allowedRun_racingRun :
    (machine AnyTable DeletesNothing).AllowedRun emptyWorld racingRun := by
  refine ⟨⟨⟨rfl, ?_⟩, deletesNothing_of_enqueues rfl⟩,
    ⟨⟨rfl, ?_⟩, deletesNothing_of_enqueues rfl⟩, ?_, ?_, ?_, trivial⟩
  · rintro message lease ⟨⟩
  · rintro message lease ⟨⟩
  · exact allowed_resume_of_enqueues (by decide +kernel)
  · exact allowed_resume_of_enqueues (by decide +kernel)
  · exact allowed_resume_of_enqueues (by decide +kernel)

theorem enqueue_idempotent_racingRun :
    ((machine AnyTable DeletesNothing).run emptyWorld racingRun).history =
        [.enqueued "default" "daily" "job-1" false false,
          .enqueued "default" "daily" "job-1" true true, .created "job-1"] ∧
      ∃ row ∈ ((machine AnyTable DeletesNothing).run emptyWorld racingRun).jobs.rows,
        HasKey "default" "daily" row ∧ row.id = "job-1" := by
  have hhistory : ((machine AnyTable DeletesNothing).run emptyWorld racingRun).history =
      [.enqueued "default" "daily" "job-1" false false,
        .enqueued "default" "daily" "job-1" true true, .created "job-1"] := by
    decide +kernel
  have hstart : (machine AnyTable DeletesNothing).Reachable emptyWorld :=
    .start ⟨trivial, rfl, rfl, rfl, rfl⟩
  refine ⟨hhistory, ?_⟩
  apply (enqueue_idempotent (hstart.run allowedRun_racingRun) (by decide)).2.2.1
  rw [hhistory]
  exact ⟨false, false, List.mem_cons_self ..⟩

end Conduit.IdempotentEnqueue
