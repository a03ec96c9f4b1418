import Conduit.Core.Fencing
import Conduit.Jobs.Tokens

/-!
# Lease fencing

Two statements take a lease (`ClaimNextJob` and the write of the Kafka claim),
five end it, and stalled workers may present any token at any time.  The events
of one job form a history of grants and endings in the sense of
`Conduit.Fencing`; the invariant is that this history is lawful and that the
token stored in the row is its holder.
-/

namespace Conduit.LeaseFencing

open Models Relational JobStore JobService JobWorker JobCalls JobMachine Fencing Transition

/-! ## The run -/

/-- Every job-table operation but retention; jobs are created by the callers of
`Enqueue`, and minted tokens never repeat. -/
def LeaseCalls (world : World) (env : Env) (call : Call) : Prop :=
  FreshToken world env call ∧
    match call with
    | .enqueue job => FromCaller job
    | .deleteFinished .. => False
    | _ => True

/-- Nothing is asked of a call that goes on. -/
theorem leaseCalls_of_continues {world : World} {env : Env} {call : Call}
    (hcontinues : call.continues = true) : LeaseCalls world env call := by
  refine ⟨freshToken_of_not_mints (call.mints_of_continues hcontinues), ?_⟩
  cases call <;> trivial

/-! ## What the history says about a claim -/

/-- The claim that minted `leaseToken` is the latest claim of the job. -/
def LatestClaim (history : List Event) (id leaseToken : String) : Prop :=
  ∃ newer older, history = newer ++ .claimed id leaseToken :: older ∧
    ∀ other, .claimed id other ∉ newer

def isEnding (id leaseToken : String) : Event → Bool
  | .ended job token _ => job = id ∧ token = leaseToken
  | _ => false

/-- How often the claim was ended by a complete, fail, release, cancel or lease
expiry. -/
def endings (history : List Event) (id leaseToken : String) : ℕ :=
  history.countP (isEnding id leaseToken)

/-- The claim was made and has not ended. -/
def Live (history : List Event) (id leaseToken : String) : Prop :=
  .claimed id leaseToken ∈ history ∧ endings history id leaseToken = 0

/-- The claim is the latest of its job and has not ended. -/
def Current (history : List Event) (id leaseToken : String) : Prop :=
  LatestClaim history id leaseToken ∧ Live history id leaseToken

/-- An operation that succeeds only when `condition` holds, and otherwise
returns an error and leaves the table as it was. -/
def SucceedsOnlyIf {Value : Type} (condition : Prop) (table : JobTable)
    (answer : Except StoreError Value × JobTable) : Prop :=
  match answer.1 with
  | .ok _ => condition
  | .error _ => answer.2 = table

/-! ## The ledger of a job -/

def ledgerEntry : Event → Option (Entry String)
  | .claimed _ leaseToken => some (.grant leaseToken)
  | .ended _ leaseToken _ => some (.finish leaseToken)
  | _ => none

def ledger (events : List Event) : List (Entry String) :=
  events.filterMap ledgerEntry

/-- What the store keeps true of a row and the events of its job. -/
structure LeaseInv (events : List Event) (row : Row) : Prop where
  lawful : Lawful (ledger events)
  held : row.leaseToken = holder (ledger events)
  running : row.leaseToken ≠ none → row.state = .running

section Row

variable {events : List Event} {row after : Row}

theorem LeaseInv.unleased (hinv : LeaseInv events row) (hstate : row.state ≠ .running) :
    row.leaseToken = none := by
  by_contra hleased
  exact hstate (hinv.running hleased)

theorem LeaseInv.claim (hinv : LeaseInv events row) {id leaseToken : String}
    (hfree : row.leaseToken = none) (hfresh : .grant leaseToken ∉ ledger events)
    (hstate : after.state = .running) (htoken : after.leaseToken = some leaseToken) :
    LeaseInv (.claimed id leaseToken :: events) after where
  lawful := .grant hinv.lawful (hinv.held.symm.trans hfree) hfresh
  held := htoken
  running _ := hstate

theorem LeaseInv.finish (hinv : LeaseInv events row) {id leaseToken : String}
    {how : Ending} (hheld : row.leaseToken = some leaseToken)
    (htoken : after.leaseToken = none) :
    LeaseInv (.ended id leaseToken how :: events) after where
  lawful := .finish hinv.lawful (hinv.held.symm.trans hheld)
  held := htoken
  running hleased := absurd htoken hleased

/-- A statement that takes the lease away, if there is one. -/
theorem LeaseInv.revoke (hinv : LeaseInv events row) {id : String} {how : Ending}
    (htoken : after.leaseToken = none) :
    LeaseInv (row.leaseToken.toList.map (.ended id · how) ++ events) after := by
  rcases hheld : row.leaseToken with _ | leaseToken
  · have hfree : holder (ledger events) = none := hinv.held.symm.trans hheld
    exact ⟨hinv.lawful, htoken.trans hfree.symm, fun hleased => absurd htoken hleased⟩
  · exact hinv.finish hheld htoken

/-- The tokens a statement would grant are new to the job. -/
def GrantsFresh (statement : Statement) (row : Row) (events : List Event) : Prop :=
  ∀ id leaseToken, .claimed id leaseToken ∈ statementEvents statement row →
    .grant leaseToken ∉ ledger events

/-- Each statement keeps the ledger lawful.  A claim must find the row pending,
which the claim query and the `WHERE` clause of `UpdateJob` see to. -/
theorem LeaseInv.set {statement : Statement} (hinv : LeaseInv events row)
    (hselects : statement.Selects row) (hfresh : GrantsFresh statement row events)
    (hclaim : ∀ selected now expires leaseToken,
      statement = .claimNextJob selected now expires leaseToken → row.state = .pending)
    (hupdate : ∀ job updatedAt, statement = .updateJob job updatedAt →
      row.leaseToken = none ∧ job.state = .running ∧ job.leaseToken ≠ "") :
    LeaseInv (statementEvents statement row ++ events) (statement.set row) := by
  cases statement with
  | claimNextJob selected now expires leaseToken =>
      have hpending := hclaim selected now expires leaseToken rfl
      have hfree := hinv.unleased (by simp [hpending])
      exact hinv.claim hfree (hfresh row.id leaseToken (List.mem_singleton_self _)) rfl rfl
  | updateJob job updatedAt =>
      obtain ⟨hfree, hstate, hnonempty⟩ := hupdate job updatedAt rfl
      refine hinv.claim hfree (hfresh row.id job.leaseToken (List.mem_singleton_self _))
        hstate ?_
      simp [Statement.set, hstate, hnonempty]
  | renewLease id leaseToken expires dbNow => exact { hinv with }
  | releaseClaim id leaseToken reason nextRun dbNow => exact hinv.finish hselects.2.2 rfl
  | completeClaimedJob id leaseToken metadata dbNow => exact hinv.finish hselects.2.2 rfl
  | failClaimedJob id leaseToken errMsg nextRun dbNow => exact hinv.finish hselects.2.2 rfl
  | cancelJob tenant id dbNow => exact hinv.revoke rfl
  | requeueExpiredRunning expired dbNow => exact hinv.revoke rfl
  | requeueDeadJob tenant id dbNow =>
      have hfree := hinv.unleased (by simp [hselects.2.1])
      exact ⟨hinv.lawful, hfree.symm.trans hinv.held, fun hleased => absurd rfl hleased⟩

end Row

/-! ## Tokens -/

/-- Rows stay in the table: no call under way deletes any. -/
structure FencingInv (world : World) : Prop where
  rows : RowsInv LeaseInv world.jobs world.history
  tokens : TokenInv world
  keeps : ∀ call ∈ world.calls, call.deletes = false

theorem claimed_of_grant_mem_ledger {history : List Event} {id leaseToken : String}
    (hgrant : .grant leaseToken ∈ ledger (eventsOf history id)) :
    .claimed id leaseToken ∈ history := by
  obtain ⟨event, hevent, hentry⟩ := List.mem_filterMap.1 hgrant
  obtain ⟨hmem, hjob⟩ := List.mem_filter.1 hevent
  cases event with
  | claimed job token =>
      cases hentry
      have hid : job = id := by simpa [eventJob] using hjob
      exact hid ▸ hmem
  | _ => cases hentry

section Perform

variable {world : World} {env : Env} {call : Call}

theorem FencingInv.perform_rows
    (hinv : FencingInv { world with calls := call :: world.calls })
    (hfresh : FreshToken world env call) :
    RowsInv LeaseInv (world.perform env call).jobs (world.perform env call).history := by
  have hcall := hinv.tokens.calls call (List.mem_cons_self ..)
  refine RowsInv.perform hinv.rows ?_ ?_ ?_
  · rintro ids rfl
    cases hinv.keeps _ (List.mem_cons_self ..)
  · intro statement hstatement row hrow hselects hrowInv
    refine hrowInv.set hselects ?_ ?_ ?_
    · intro id leaseToken hevent hgrant
      exact hinv.tokens.unclaimed_of_grants hfresh (grants_of_statement hstatement hevent)
        row.id (claimed_of_grant_mem_ledger hgrant)
    · rintro selected now expires leaseToken rfl
      obtain ⟨filter, hclaimable⟩ := claimable_of_statement hstatement hrow hselects
      exact hclaimable.1
    · rintro job updatedAt rfl
      obtain ⟨rfl, -⟩ := statement_eq_updateJob hstatement
      have hpending := hinv.tokens.pending_of_kafkaWrite (List.mem_cons_self ..) hrow hselects
      exact ⟨hpending.2.1, hpending.2.2, hcall.2.1⟩
  · intro job hinserts
    have hunleased : (createRow env.storeNow (prepareJob env job)).leaseToken = none :=
      createRow_leaseToken (hcall.inserts hinserts)
    exact ⟨.nil, hunleased, fun hleased => absurd hunleased hleased⟩

theorem FencingInv.perform (hinv : FencingInv { world with calls := call :: world.calls })
    (hfresh : FreshToken world env call) :
    FencingInv (world.perform env call) where
  rows := hinv.perform_rows hfresh
  tokens := hinv.tokens.perform hfresh
  keeps := forall_mem_calls_perform hinv.keeps fun _ hleads => hleads.deletes

end Perform

theorem tokenCalls_of_leaseCalls (world : World) (env : Env) (call : Call)
    (hmay : LeaseCalls world env call) : TokenCalls world env call := by
  refine ⟨hmay.1, ?_⟩
  cases call with
  | enqueue job => exact hmay.2
  | _ => trivial

theorem deletes_of_starts {world : World} {env : Env} {call : Call}
    (hstarts : Starts world call) (hmay : LeaseCalls world env call) : call.deletes = false := by
  have hinitial := hstarts.initial
  cases call with
  | deleteFinished => exact hmay.2.elim
  | deleteExec => cases hinitial
  | _ => rfl

theorem FencingInv.init {table : JobTable} (htable : NoLease table) :
    FencingInv ⟨table, [], [], [], []⟩ := by
  refine ⟨⟨fun row hrow => ?_, fun id _ => rfl⟩, .init htable, by simp⟩
  exact ⟨.nil, htable row hrow, fun hleased => absurd (htable row hrow) hleased⟩

theorem FencingInv.subperm {world : World} (hinv : FencingInv world) {calls : List Call}
    (hcalls : calls.Subperm world.calls) : FencingInv { world with calls } :=
  ⟨hinv.rows, hinv.tokens.subperm hcalls, fun call hcall => hinv.keeps call (hcalls.subset hcall)⟩

theorem FencingInv.issue {world : World} (hinv : FencingInv world) {env : Env}
    {call : Call} (hstarts : Starts world call) (hmay : LeaseCalls world env call) :
    FencingInv { world with calls := call :: world.calls } where
  rows := hinv.rows
  tokens := hinv.tokens.issue hstarts.initial
    (callToken_of_starts hstarts (tokenCalls_of_leaseCalls world env call hmay))
  keeps := List.forall_mem_cons.2 ⟨deletes_of_starts hstarts hmay, hinv.keeps⟩

/-- The fencing invariant holds in every reachable world. -/
theorem fencingInv {world : World}
    (hreach : (machine NoLease LeaseCalls).Reachable world) : FencingInv world := by
  refine invariant_of_perform FencingInv hreach ?_ ?_ ?_ ?_
  · intro table htable
    exact .init htable
  · intro world calls hcalls hinv
    exact hinv.subperm hcalls
  · intro world env call hstarts hmay hinv
    exact hinv.issue hstarts hmay
  · intro world env call hmay hinv
    exact hinv.perform hmay.1

/-! ## From the ledger back to the history -/

section History

variable {history : List Event} {id leaseToken : String}

theorem grant_mem_ledger_iff :
    .grant leaseToken ∈ ledger (eventsOf history id) ↔
      .claimed id leaseToken ∈ history := by
  refine ⟨claimed_of_grant_mem_ledger, fun hclaimed => ?_⟩
  refine List.mem_filterMap.2 ⟨_, List.mem_filter.2 ⟨hclaimed, ?_⟩, rfl⟩
  simp [eventJob]

theorem endings_eq_count :
    endings history id leaseToken =
      (ledger (eventsOf history id)).count (.finish leaseToken) := by
  rw [endings, ledger, eventsOf, List.count, List.countP_filterMap, List.countP_filter]
  apply List.countP_congr
  intro event _
  cases event <;> simp [isEnding, ledgerEntry, eventJob, and_comm]

theorem live_iff_holder (hlawful : Lawful (ledger (eventsOf history id))) :
    Live history id leaseToken ↔
      holder (ledger (eventsOf history id)) = some leaseToken := by
  rw [hlawful.holder_eq_some_iff, Live, endings_eq_count, List.count_eq_zero,
    grant_mem_ledger_iff]

theorem latestClaim_of_holder
    (hholder : holder (ledger (eventsOf history id)) = some leaseToken) :
    LatestClaim history id leaseToken := by
  obtain ⟨older, hledger⟩ := holder_latest hholder
  rw [ledger, eventsOf, List.filterMap_filter, List.filterMap_eq_cons_iff] at hledger
  obtain ⟨newer, event, rest, hhistory, hnone, hevent, -⟩ := hledger
  have hclaimed : event = .claimed id leaseToken := by
    cases event <;> simp_all [eventJob, ledgerEntry]
  refine ⟨newer, rest, hclaimed ▸ hhistory, fun other hother => ?_⟩
  have hentry := hnone _ hother
  simp [eventJob, ledgerEntry] at hentry

end History

theorem FencingInv.lawful {world : World} (hinv : FencingInv world) (id : String) :
    Lawful (ledger (eventsOf world.history id)) := by
  by_cases hpresent : ∃ row ∈ world.jobs.rows, row.id = id
  · obtain ⟨row, hrow, rfl⟩ := hpresent
    exact (hinv.rows.present row hrow).lawful
  · have habsent : ∀ row ∈ world.jobs.rows, row.id ≠ id := fun row hrow hid =>
      hpresent ⟨row, hrow, hid⟩
    rw [hinv.rows.absent id habsent]
    exact .nil

/-- A row that answers to a token is held by the latest claim, which is live. -/
theorem FencingInv.of_holds {world : World} (hinv : FencingInv world) {row : Row}
    (hrow : row ∈ world.jobs.rows) {id leaseToken : String}
    (hholds : Statement.Holds id leaseToken row) :
    Current world.history id leaseToken := by
  obtain ⟨rfl, -, htoken⟩ := hholds
  have hholder := (hinv.rows.present row hrow).held.symm.trans htoken
  exact ⟨latestClaim_of_holder hholder, (live_iff_holder (hinv.lawful row.id)).2 hholder⟩

/-! ## The fenced operations -/

section Operations

variable {condition : Prop} {table : JobTable} {statement : Statement} {err : StoreError}

theorem execOr_succeedsOnlyIf
    (hselects : ∀ row ∈ table.rows, statement.Selects row → condition) :
    SucceedsOnlyIf condition table (execOr table statement err) := by
  rw [SucceedsOnlyIf, execOr]
  by_cases hnone : table.affected statement.update = []
  · rw [if_pos hnone]
    exact Table.exec_eq_self hnone
  · rw [if_neg hnone]
    obtain ⟨row, hrow⟩ := List.exists_mem_of_ne_nil _ hnone
    exact hselects row (Table.mem_affected.1 hrow).1 (Table.mem_affected.1 hrow).2

theorem execReturning_succeedsOnlyIf
    (hselects : ∀ row ∈ table.rows, statement.Selects row → condition) :
    SucceedsOnlyIf condition table (execReturning table statement err) := by
  rw [SucceedsOnlyIf, execReturning]
  rcases haffected : table.affected statement.update with _ | ⟨row, rest⟩
  · exact Table.exec_eq_self haffected
  · have hrow : row ∈ table.affected statement.update := by
      rw [haffected]
      exact List.mem_cons_self ..
    exact hselects row (Table.mem_affected.1 hrow).1 (Table.mem_affected.1 hrow).2

theorem withToken_succeedsOnlyIf {Value : Type} {leaseToken : String}
    {run : Statement → Except StoreError Value × JobTable}
    (hrun : SucceedsOnlyIf condition table (run statement)) :
    SucceedsOnlyIf condition table
      (match withToken leaseToken statement with
        | none => (.error err, table)
        | some statement => run statement) := by
  rw [withToken]
  by_cases hempty : leaseToken = ""
  · rw [if_pos hempty]
    rfl
  · rw [if_neg hempty]
    exact hrun

end Operations

/-- Lease fencing.  In every reachable world an operation that presents a token
on a job succeeds only if the claim that minted the token is the latest claim of
the job and has not ended, and otherwise changes nothing.  Each job has at most
one live claim, and each claim ends at most once. -/
theorem lease_fencing {world : World}
    (hreach : (machine NoLease LeaseCalls).Reachable world) (id leaseToken : String) :
    (∀ now dbNow leaseDuration,
      SucceedsOnlyIf (Current world.history id leaseToken) world.jobs
        (renewLease world.jobs now dbNow id leaseToken leaseDuration)) ∧
    (∀ now dbNow reason retryAfter,
      SucceedsOnlyIf (Current world.history id leaseToken) world.jobs
        (releaseClaim world.jobs now dbNow id leaseToken reason retryAfter)) ∧
    (∀ dbNow metadata,
      SucceedsOnlyIf (Current world.history id leaseToken) world.jobs
        (completeClaimedJob world.jobs dbNow id leaseToken metadata)) ∧
    (∀ dbNow errMsg nextRun,
      SucceedsOnlyIf (Current world.history id leaseToken) world.jobs
        (failClaimedJob world.jobs dbNow id leaseToken errMsg nextRun)) ∧
    (∀ other, Live world.history id leaseToken → Live world.history id other →
      leaseToken = other) ∧
    endings world.history id leaseToken ≤ 1 := by
  have hinv := fencingInv hreach
  have hlawful := hinv.lawful id
  have hholds : ∀ row ∈ world.jobs.rows, Statement.Holds id leaseToken row →
      Current world.history id leaseToken :=
    fun row hrow => hinv.of_holds hrow
  refine ⟨?_, ?_, ?_, ?_, ?_, ?_⟩
  · intro now dbNow leaseDuration
    exact withToken_succeedsOnlyIf (execOr_succeedsOnlyIf hholds)
  · intro now dbNow reason retryAfter
    exact execOr_succeedsOnlyIf hholds
  · intro dbNow metadata
    exact withToken_succeedsOnlyIf (execReturning_succeedsOnlyIf hholds)
  · intro dbNow errMsg nextRun
    exact withToken_succeedsOnlyIf (execOr_succeedsOnlyIf hholds)
  · intro other hlive hother
    rw [live_iff_holder hlawful] at hlive hother
    exact Option.some.inj (hlive.symm.trans hother)
  · rw [endings_eq_count]
    exact hlawful.count_finish_le_one leaseToken

theorem lease_fencing_claimedRun :
    (renewLease ((machine NoLease LeaseCalls).run emptyWorld claimedRun).jobs minute minute
        "job-1" (newLeaseToken fun _ => 1) minute).1 = .ok () ∧
      SucceedsOnlyIf
        (Current ((machine NoLease LeaseCalls).run emptyWorld claimedRun).history "job-1"
          (newLeaseToken fun _ => 1))
        ((machine NoLease LeaseCalls).run emptyWorld claimedRun).jobs
        (renewLease ((machine NoLease LeaseCalls).run emptyWorld claimedRun).jobs
          minute minute "job-1" (newLeaseToken fun _ => 1) minute) := by
  have hempty : NoLease emptyWorld.jobs := fun row hrow => by cases hrow
  have hstart : (machine NoLease LeaseCalls).Reachable emptyWorld :=
    .start ⟨hempty, rfl, rfl, rfl, rfl⟩
  have hreach := hstart.run (allowedRun_claimedRun
    ⟨freshToken_claimedRun.1, fromCaller_plainJob⟩ ⟨freshToken_claimedRun.2, trivial⟩)
  constructor
  · decide +kernel
  · exact (lease_fencing hreach "job-1" _).1 minute minute minute

end Conduit.LeaseFencing
