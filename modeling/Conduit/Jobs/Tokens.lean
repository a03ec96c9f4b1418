import Conduit.Jobs.Machine

/-!
# Lease tokens

A token is minted once and written to at most one row, by the claim it was minted for.
So a token found in a row was claimed in the past, and the token of a Kafka claim that
is still to be written is in no row.  Nothing here depends on rows staying in the
table: retention may delete them at any time.
-/

namespace Conduit.LeaseFencing

open Models Relational JobStore JobService JobWorker JobCalls JobMachine Transition

/-- A table in which nobody holds a lease. -/
def NoLease (table : JobTable) : Prop :=
  ∀ row ∈ table.rows, row.leaseToken = none

/-- Every job-table operation; jobs are created by the callers of `Enqueue`, and
minted tokens never repeat. -/
def TokenCalls (world : World) (env : Env) (call : Call) : Prop :=
  FreshToken world env call ∧
    match call with
    | .enqueue job => FromCaller job
    | _ => True

/-- The token of a Kafka claim between its read and its write. -/
def pendingToken : Call → Option String
  | .kafkaWrite job => some job.leaseToken
  | _ => none

/-- What is known of a call with statements left to run. -/
def CallToken (minted : List String) (history : List Event) : Call → Prop
  | .kafkaWrite job => job.state = .running ∧ job.leaseToken ≠ "" ∧
      job.leaseToken ∈ minted ∧ ∀ id, .claimed id job.leaseToken ∉ history
  | .enqueue job | .enqueueInsert job => job.leaseToken = ""
  | _ => True

structure TokenInv (world : World) : Prop where
  rows : ∀ row ∈ world.jobs.rows, ∀ leaseToken, row.leaseToken = some leaseToken →
    row.state = .running ∧ .claimed row.id leaseToken ∈ world.history
  minted : ∀ id leaseToken, .claimed id leaseToken ∈ world.history →
    leaseToken ∈ world.minted
  calls : ∀ call ∈ world.calls, CallToken world.minted world.history call
  distinct : (world.calls.filterMap pendingToken).Nodup

theorem CallToken.mono {minted minted' : List String} {history history' : List Event}
    {call : Call} (hcall : CallToken minted history call) (hminted : minted ⊆ minted')
    (hunclaimed : ∀ job, call = .kafkaWrite job →
      ∀ id, .claimed id job.leaseToken ∉ history') :
    CallToken minted' history' call := by
  cases call with
  | kafkaWrite job =>
      exact ⟨hcall.1, hcall.2.1, hminted hcall.2.2.1, hunclaimed job rfl⟩
  | _ => exact hcall

theorem CallToken.inserts {minted : List String} {history : List Event} {call : Call}
    {job : Job} (hcall : CallToken minted history call) (hinserts : call.Inserts job) :
    job.leaseToken = "" := by
  rcases hinserts with rfl | ⟨requested, rfl, rfl, -⟩
  · exact hcall
  · exact (withTenant_leaseToken requested).trans hcall

section Perform

variable {world : World} {env : Env} {call : Call}

/-- A token about to be granted has not been granted before. -/
theorem TokenInv.unclaimed_of_grants
    (hinv : TokenInv { world with calls := call :: world.calls })
    (hfresh : FreshToken world env call)
    {leaseToken : String} (hgrants : Grants env call leaseToken) (id : String) :
    .claimed id leaseToken ∉ world.history := by
  rcases hgrants with ⟨⟨leaseDuration, filter, rfl⟩, rfl⟩ | ⟨job, rfl, rfl⟩
  · exact fun hclaimed => hfresh rfl (hinv.minted id _ hclaimed)
  · exact (hinv.calls _ (List.mem_cons_self ..)).2.2.2 id

/-- The write of a Kafka claim only ever selects a pending row without a lease:
no row holds its token yet. -/
theorem TokenInv.pending_of_kafkaWrite {job : Job} {updatedAt : ℤ} {row : Row}
    (hinv : TokenInv world) (hpending : .kafkaWrite job ∈ world.calls)
    (hrow : row ∈ world.jobs.rows)
    (hselects : (Statement.updateJob job updatedAt).Selects row) :
    row.state = .pending ∧ row.leaseToken = none ∧ job.state = .running := by
  have hcall := hinv.calls _ hpending
  rcases hselects.2 with hempty | hheld | ⟨hpending, hstate, hfree⟩
  · exact absurd hempty hcall.2.1
  · exact absurd (hinv.rows row hrow job.leaseToken hheld).2 (hcall.2.2.2 row.id)
  · exact ⟨hpending, hfree, hstate⟩

/-- Of the finished rows only a dead one is ever selected, by its requeue. -/
theorem TokenInv.requeues_of_finished {statement : Statement} {row : Row}
    (hinv : TokenInv { world with calls := call :: world.calls })
    (hrow : row ∈ world.jobs.rows) (hstatement : call.statement env world.jobs = some statement)
    (hselects : statement.Selects row)
    (hfinished : row.state = .completed ∨ row.state = .dead) :
    row.state = .dead ∧
      ∃ tenant, call = .requeueDeadJob tenant row.id ∧ InTenant tenant row := by
  refine requeues_of_selects hrow hstatement hselects ?_ hfinished
  rintro job updatedAt rfl
  obtain ⟨rfl, -⟩ := statement_eq_updateJob hstatement
  exact (hinv.pending_of_kafkaWrite (List.mem_cons_self ..) hrow hselects).1

theorem pendingToken_of_leads {table : JobTable} {next : Call} {leaseToken : String}
    (hleads : Call.Leads env table call next)
    (htoken : pendingToken next = some leaseToken) :
    call.mints = true ∧ leaseToken = newLeaseToken env.random := by
  cases hleads with
  | kafkaWrite message lease hclaims hread => exact ⟨rfl, (Option.some.inj htoken).symm⟩
  | _ => cases htoken

/-- A token found in a row after a statement was there before, or is the one the
statement claimed the row with. -/
theorem TokenInv.rows_perform (hinv : TokenInv { world with calls := call :: world.calls })
    {row : Row} (hrow : row ∈ (world.perform env call).jobs.rows) {leaseToken : String}
    (htoken : row.leaseToken = some leaseToken) :
    row.state = .running ∧ .claimed row.id leaseToken ∈ (world.perform env call).history := by
  have hcall := hinv.calls call (List.mem_cons_self ..)
  have hrunning : ∀ job, call = .kafkaWrite job → job.state = .running := by
    rintro job rfl
    exact hcall.1
  cases leased_of_does (effect_does env world.jobs call) (fun job => hcall.inserts) hrow
    htoken with
  | kept hold => exact (hinv.rows row hold leaseToken htoken).imp_right (List.mem_append_right _)
  | renewed old hold hheld id lease expires dbNow hrenews hset =>
      rw [hset]
      exact (hinv.rows old hold leaseToken hheld).imp_right (List.mem_append_right _)
  | claimed hgrants hevent hstate => exact ⟨hstate hrunning, List.mem_append_left _ hevent⟩

/-- The token of a Kafka claim under way is not claimed by another call. -/
theorem TokenInv.unclaimed_perform
    (hinv : TokenInv { world with calls := call :: world.calls })
    (hfresh : FreshToken world env call) {job : Job} (hjob : .kafkaWrite job ∈ world.calls)
    (id : String) : .claimed id job.leaseToken ∉ (world.perform env call).history := by
  intro hclaimed
  have hpending := hinv.calls _ (List.mem_cons_of_mem _ hjob)
  rcases List.mem_append.1 hclaimed with hnew | hold
  · rcases grants_of_effect hnew with ⟨⟨leaseDuration, filter, rfl⟩, htoken⟩ |
      ⟨other, rfl, htoken⟩
    · exact hfresh rfl (htoken ▸ hpending.2.2.1)
    · have hdistinct :
          (other.leaseToken :: world.calls.filterMap pendingToken).Nodup := hinv.distinct
      rw [List.nodup_cons, ← htoken] at hdistinct
      exact hdistinct.1 (List.mem_filterMap.2 ⟨_, hjob, rfl⟩)
  · exact hpending.2.2.2 id hold

theorem TokenInv.minted_perform
    (hinv : TokenInv { world with calls := call :: world.calls }) {id leaseToken : String}
    (hclaimed : .claimed id leaseToken ∈ (world.perform env call).history) :
    leaseToken ∈ (world.perform env call).minted := by
  rcases List.mem_append.1 hclaimed with hnew | hold
  · rcases grants_of_effect hnew with ⟨⟨leaseDuration, filter, rfl⟩, rfl⟩ | ⟨job, rfl, rfl⟩
    · exact List.mem_append_left _ (List.mem_singleton_self _)
    · exact List.mem_append_right _ (hinv.calls _ (List.mem_cons_self ..)).2.2.1
  · exact List.mem_append_right _ (hinv.minted id leaseToken hold)

theorem TokenInv.callToken_of_leads {next : Call}
    (hinv : TokenInv { world with calls := call :: world.calls })
    (hfresh : FreshToken world env call)
    (hleads : Call.Leads env world.jobs call next) :
    CallToken (world.perform env call).minted (world.perform env call).history next := by
  have hcall := hinv.calls call (List.mem_cons_self ..)
  cases hleads with
  | kafkaWrite message lease hclaims hread =>
      have hminted : newLeaseToken env.random ∈
          (world.perform env (.kafkaClaim message lease)).minted :=
        List.mem_append_left _ (Option.mem_toList.2 (effect_minted_kafkaClaim hclaims))
      refine ⟨rfl, newLeaseToken_ne_empty _, hminted, ?_⟩
      intro id hclaimed
      rcases List.mem_append.1 hclaimed with hnew | hold
      · rcases grants_of_effect hnew with ⟨⟨_, _, heq⟩, -⟩ | ⟨_, heq, -⟩ <;> cases heq
      · exact hfresh rfl (hinv.minted id _ hold)
  | enqueueInsert job hkey => exact (withTenant_leaseToken job).trans hcall
  | _ => trivial

theorem TokenInv.distinct_perform
    (hinv : TokenInv { world with calls := call :: world.calls })
    (hfresh : FreshToken world env call) :
    ((world.perform env call).calls.filterMap pendingToken).Nodup := by
  have hrest : (world.calls.filterMap pendingToken).Nodup :=
    hinv.distinct.sublist ((List.sublist_cons_self ..).filterMap _)
  change ((_ ++ world.calls).filterMap pendingToken).Nodup
  rw [List.filterMap_append]
  rcases hnext : (call.effect env world.jobs).next with _ | next
  · exact hrest
  rcases htoken : pendingToken next with _ | leaseToken
  · simpa [htoken] using hrest
  · obtain ⟨hmints, rfl⟩ := pendingToken_of_leads (effect_leads hnext) htoken
    have hother : newLeaseToken env.random ∉ world.calls.filterMap pendingToken := by
      intro hmem
      obtain ⟨other, hother, heq⟩ := List.mem_filterMap.1 hmem
      cases other with
      | kafkaWrite job =>
          have hpending := hinv.calls _ (List.mem_cons_of_mem _ hother)
          exact hfresh hmints (Option.some.inj heq ▸ hpending.2.2.1)
      | _ => cases heq
    simpa [htoken] using ⟨by simpa using hother, hrest⟩

theorem TokenInv.perform (hinv : TokenInv { world with calls := call :: world.calls })
    (hfresh : FreshToken world env call) : TokenInv (world.perform env call) where
  rows row hrow leaseToken htoken := hinv.rows_perform hrow htoken
  minted id leaseToken hclaimed := hinv.minted_perform hclaimed
  calls other hother := by
    rcases mem_calls_perform hother with hleads | hold
    · exact hinv.callToken_of_leads hfresh hleads
    · exact (hinv.calls other (List.mem_cons_of_mem _ hold)).mono
        (List.subset_append_right ..) fun job heq => hinv.unclaimed_perform hfresh (heq ▸ hold)
  distinct := hinv.distinct_perform hfresh

end Perform

theorem pendingToken_of_initial {call : Call} (hinitial : call.continues = false) :
    pendingToken call = none := by
  cases call <;> first | rfl | cases hinitial

theorem TokenInv.init {table : JobTable} (htable : NoLease table) :
    TokenInv ⟨table, [], [], [], []⟩ := by
  refine ⟨?_, by simp, by simp, by simp⟩
  intro row hrow leaseToken htoken
  rw [htable row hrow] at htoken
  cases htoken

theorem TokenInv.subperm {world : World} (hinv : TokenInv world) {calls : List Call}
    (hcalls : calls.Subperm world.calls) : TokenInv { world with calls } := by
  obtain ⟨kept, hperm, hsublist⟩ := hcalls
  have hkept := hinv.distinct.sublist (hsublist.filterMap pendingToken)
  exact ⟨hinv.rows, hinv.minted,
    fun call hcall => hinv.calls call (hsublist.subset (hperm.symm.subset hcall)),
    (hperm.filterMap pendingToken).nodup_iff.1 hkept⟩

theorem TokenInv.issue {world : World} (hinv : TokenInv world) {call : Call}
    (hinitial : call.continues = false)
    (hcall : CallToken world.minted world.history call) :
    TokenInv { world with calls := call :: world.calls } := by
  refine ⟨hinv.rows, hinv.minted, List.forall_mem_cons.2 ⟨hcall, hinv.calls⟩, ?_⟩
  rw [List.filterMap_cons_none (pendingToken_of_initial hinitial)]
  exact hinv.distinct

theorem callToken_of_starts {world : World} {env : Env} {call : Call}
    (hstarts : Starts world call) (hmay : TokenCalls world env call) :
    CallToken world.minted world.history call := by
  have hinitial := hstarts.initial
  have hmay := hmay.2
  cases call with
  | enqueue job => exact hmay.leaseToken
  | kafkaWrite | enqueueInsert => cases hinitial
  | _ => trivial

end Conduit.LeaseFencing
