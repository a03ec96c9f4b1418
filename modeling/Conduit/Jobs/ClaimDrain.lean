import Conduit.Service.JobService
import Conduit.Store.Paging

/-!
# Draining the queue

Every claim changes the table the next one selects from.  With the clocks standing still and
nobody else writing, repeated calls of `ClaimNextJob` nevertheless hand out what one ordered
query would have listed at the start: each eligible row once, the important ones first, and
then `ErrJobNotFound` for ever.

The order leaves ties open, and so does the specification of a call: it may take any eligible
row that no other one precedes.  The method as modelled takes the first of them.
-/

namespace Conduit.ClaimDrain

open Models Relational JobStore JobService

/-! ## One call -/

/-- What repeated calls have in common: both clocks, the lease and the filter. -/
structure ClaimCall where
  now : ℤ
  dbNow : ℤ
  leaseDuration : ℤ
  filter : ClaimFilter

namespace ClaimCall

variable (call : ClaimCall)

/-- The rows a call may take when nothing is locked: pending, due and in the filter. -/
def Eligible (row : Row) : Prop :=
  Claimable call.dbNow call.filter (fun _ => false) row

instance : DecidablePred call.Eligible := fun row =>
  inferInstanceAs (Decidable (Claimable call.dbNow call.filter _ row))

def eligible (table : JobTable) : List Row :=
  table.rows.filter call.Eligible

/-- A row as a claim leaves it. -/
def claimed (row : Row) (random : Fin 16 → UInt8) : Row := { row with
  state := .running
  attempt := row.attempt + 1
  startedAt := some (timestamptz call.now)
  leaseExpiresAt := some (timestamptz (call.now + call.leaseDuration))
  leaseToken := some (newLeaseToken random)
  updatedAt := timestamptz call.now }

def statement (row : Row) (random : Fin 16 → UInt8) : Statement :=
  .claimNextJob (some row.id) call.now (call.now + call.leaseDuration) (newLeaseToken random)

/-- A call of the method, with nothing locked. -/
def run (table : JobTable) (random : Fin 16 → UInt8) : Except StoreError Job × JobTable :=
  claimNextJob table call.now call.dbNow (newLeaseToken random) (fun _ => false)
    call.leaseDuration call.filter

/-- The answers a call can give. -/
inductive Answers (table : JobTable) (random : Fin 16 → UInt8) :
    Except StoreError Job → JobTable → Prop
  | claimed {row : Row} (hrow : row ∈ call.eligible table)
      (hfirst : ∀ other ∈ call.eligible table, claimBefore row other) :
      Answers table random (.ok (scanJob (call.claimed row random)))
        (table.exec (call.statement row random).update)
  | notFound (hnone : call.eligible table = []) :
      Answers table random (.error .jobNotFound) table

variable {call}

theorem mem_eligible {table : JobTable} {row : Row} :
    row ∈ call.eligible table ↔ row ∈ table.rows ∧ call.Eligible row := by
  rw [eligible, List.mem_filter, decide_eq_true_eq]

theorem not_eligible_claimed (row : Row) (random : Fin 16 → UInt8) :
    ¬ call.Eligible (call.claimed row random) := by
  rintro ⟨hstate, -⟩
  cases hstate

/-- The method gives one of these answers. -/
theorem answers_run (table : JobTable) (random : Fin 16 → UInt8) :
    call.Answers table random (call.run table random).1 (call.run table random).2 := by
  rw [run, claimNextJob, claimNextJobStatement]
  cases hselected : selectOrdered claimBefore
      (Claimable call.dbNow call.filter fun _ => false) 1 table.rows with
  | nil =>
      have hnone : call.eligible table = [] := by
        rw [eligible, List.filter_eq_nil_iff]
        intro row hrow
        rw [decide_eq_true_eq]
        exact not_selects_of_selectOrdered_eq_nil Nat.one_pos hselected hrow
      have hselects : ∀ row ∈ table.rows, ¬ (Statement.claimNextJob none call.now
          (call.now + call.leaseDuration) (newLeaseToken random)).Selects row := by
        intro row _ hselected
        cases hselected
      rw [List.head?_nil, Option.map_none, execReturning_of_forall_not .jobNotFound hselects]
      exact .notFound hnone
  | cons row others =>
      have hhead : (selectOrdered claimBefore
          (Claimable call.dbNow call.filter fun _ => false) 1 table.rows).head? = some row := by
        rw [hselected]
        rfl
      obtain ⟨hrow, heligible⟩ := mem_selectOrdered (List.mem_of_head? hhead)
      change call.Answers table random
        (execReturning table (call.statement row random) .jobNotFound).1
        (execReturning table (call.statement row random) .jobNotFound).2
      have hselects : (call.statement row random).Selects row := rfl
      have honly : ∀ other, (call.statement row random).Selects other → other.id = row.id :=
        fun other hother => (Option.some.inj hother).symm
      rw [execReturning_of_selects .jobNotFound hrow hselects honly]
      refine .claimed (mem_eligible.mpr ⟨hrow, heligible⟩) ?_
      intro other hother
      obtain ⟨hmem, hselects⟩ := mem_eligible.mp hother
      exact before_of_head_selectOrdered hhead hmem hselects

/-- A claim takes its row out of the eligible ones and leaves all other rows alone. -/
theorem split_of_claimed {table : JobTable} {row : Row} (random : Fin 16 → UInt8)
    (hrow : row ∈ call.eligible table) :
    (call.eligible table).Perm
        (row :: call.eligible (table.exec (call.statement row random).update)) ∧
      ∀ other, (other ∈ (table.exec (call.statement row random).update).rows ∧
          ¬ call.Eligible other) ↔
        (other ∈ table.rows ∧ ¬ call.Eligible other) ∨ other = call.claimed row random := by
  obtain ⟨hmem, heligible⟩ := mem_eligible.mp hrow
  have hselects : ∀ other, (call.statement row random).update.selects other ↔
      jobs.key other = jobs.key row := fun other =>
    ⟨fun hselects => (Option.some.inj hselects).symm, fun hid => congrArg some hid.symm⟩
  obtain ⟨before, after, hsplit, hexec⟩ := Table.exec_split hmem hselects
  change _ = before ++ call.claimed row random :: after at hexec
  have hclaimed : ¬ call.Eligible (call.claimed row random) := not_eligible_claimed row random
  constructor
  · rw [eligible, eligible, hsplit, hexec, List.filter_append, List.filter_append,
      List.filter_cons_of_pos (by simpa using heligible),
      List.filter_cons_of_neg (by simpa using hclaimed)]
    exact List.perm_middle
  · intro other
    rw [hsplit, hexec]
    simp only [List.mem_append, List.mem_cons]
    by_cases hother : other = row
    · rw [hother]
      have hne : row ≠ call.claimed row random := fun heq => hclaimed (heq ▸ heligible)
      simp [heligible, hne]
    · by_cases hnew : other = call.claimed row random
      · simp [hnew, hclaimed]
      · simp [hother, hnew]

/-! ## Calls in a row -/

/-- Calls one after the other, each with bytes of its own for the token. -/
inductive Calls (call : ClaimCall) :
    JobTable → List (Fin 16 → UInt8) → List (Except StoreError Job) → JobTable → Prop
  | nil (table : JobTable) : Calls call table [] [] table
  | cons {table next final : JobTable} {random : Fin 16 → UInt8}
      {draws : List (Fin 16 → UInt8)} {answer : Except StoreError Job}
      {answers : List (Except StoreError Job)} (hanswer : call.Answers table random answer next)
      (hcalls : Calls call next draws answers final) :
      Calls call table (random :: draws) (answer :: answers) final

/-- The answers of the method and the table it leaves. -/
def runs (call : ClaimCall) :
    JobTable → List (Fin 16 → UInt8) → List (Except StoreError Job) × JobTable
  | table, [] => ([], table)
  | table, random :: draws =>
      ((call.run table random).1 :: (call.runs (call.run table random).2 draws).1,
        (call.runs (call.run table random).2 draws).2)

theorem calls_runs (table : JobTable) (draws : List (Fin 16 → UInt8)) :
    call.Calls table draws (call.runs table draws).1 (call.runs table draws).2 := by
  induction draws generalizing table with
  | nil => exact .nil table
  | cons random draws ih => exact .cons (call.answers_run table random) (ih _)

/-- The eligible rows have been handed out in an order, and nothing else has changed. -/
structure Drained (call : ClaimCall) (table : JobTable) (draws : List (Fin 16 → UInt8))
    (answers : List (Except StoreError Job)) (final : JobTable) (order : List Row) : Prop where
  each : order.Perm (call.eligible table)
  ordered : order.Pairwise claimBefore
  answers : answers =
    (List.zipWith call.claimed order draws).map (fun row => .ok (scanJob row)) ++
      List.replicate (draws.length - order.length) (.error .jobNotFound)
  rows : ∀ row, row ∈ final.rows ↔
    (row ∈ table.rows ∧ ¬ call.Eligible row) ∨ row ∈ List.zipWith call.claimed order draws

/-- Once nothing is eligible every call answers that there is no job. -/
theorem drained_of_eligible_eq_nil {table final : JobTable} {draws : List (Fin 16 → UInt8)}
    {answers : List (Except StoreError Job)} (hcalls : call.Calls table draws answers final)
    (hnone : call.eligible table = []) : call.Drained table draws answers final [] := by
  have hrows : ∀ row, row ∈ table.rows → ¬ call.Eligible row := by
    intro row hrow heligible
    have hmem := mem_eligible.mpr ⟨hrow, heligible⟩
    rw [hnone] at hmem
    cases hmem
  have hsame : answers = List.replicate draws.length (.error .jobNotFound) ∧ final = table := by
    clear hrows
    induction hcalls with
    | nil => exact ⟨rfl, rfl⟩
    | cons hanswer hcalls ih =>
        cases hanswer with
        | claimed hrow _ =>
            rw [hnone] at hrow
            cases hrow
        | notFound _ =>
            obtain ⟨hanswers, hfinal⟩ := ih hnone
            exact ⟨by rw [hanswers]; rfl, hfinal⟩
  obtain ⟨hanswers, hfinal⟩ := hsame
  refine ⟨by rw [hnone], .nil, by simpa using hanswers, ?_⟩
  intro row
  rw [hfinal]
  simpa using hrows row

/-- Enough calls drain the queue, whatever they do about ties. -/
theorem exists_drained {table final : JobTable} {draws : List (Fin 16 → UInt8)}
    {answers : List (Except StoreError Job)} (hcalls : call.Calls table draws answers final)
    (hdraws : (call.eligible table).length ≤ draws.length) :
    ∃ order, call.Drained table draws answers final order := by
  induction hcalls with
  | nil table =>
      exact ⟨[], drained_of_eligible_eq_nil (.nil table)
        (List.length_eq_zero_iff.mp (Nat.le_zero.mp hdraws))⟩
  | @cons table next final random draws answer answers hanswer hcalls ih =>
      cases hanswer with
      | notFound hnone =>
          exact ⟨[], drained_of_eligible_eq_nil (.cons (.notFound hnone) hcalls) hnone⟩
      | @claimed row hrow hfirst =>
          obtain ⟨hperm, hothers⟩ := split_of_claimed random hrow
          have hlength := hperm.length_eq
          rw [List.length_cons] at hlength hdraws
          obtain ⟨order, hdrained⟩ := ih (by omega)
          have heach : (row :: order).Perm (call.eligible table) :=
            (hdrained.each.cons row).trans hperm.symm
          refine ⟨row :: order, heach, ?_, ?_, ?_⟩
          · refine List.pairwise_cons.mpr ⟨fun other hother => ?_, hdrained.ordered⟩
            exact hfirst other (heach.subset (List.mem_cons_of_mem row hother))
          · rw [hdrained.answers]
            simp
          · intro other
            rw [hdrained.rows, hothers, List.zipWith_cons_cons, List.mem_cons, or_assoc]

theorem leaseToken_claimed (order : List Row) (draws : List (Fin 16 → UInt8)) :
    (List.zipWith call.claimed order draws).map Row.leaseToken =
      (draws.take order.length).map fun random => some (newLeaseToken random) := by
  induction order generalizing draws with
  | nil => rfl
  | cons row order ih =>
      cases draws with
      | nil => rfl
      | cons random draws =>
          rw [List.zipWith_cons_cons, List.map_cons, ih]
          rfl

end ClaimCall

/-- Calls of `ClaimNextJob` with the clocks standing still and no other writer, as many as
there are eligible rows or more.  Whatever is done about ties, the eligible rows are handed
out each once and in the order of the query, running, counted and with a token made of the
bytes of the call; after that every call answers that there is no job, and no other row has
changed.  The method's own calls are such calls. -/
theorem claims_drain_queue (call : ClaimCall) (table : JobTable)
    {draws : List (Fin 16 → UInt8)} (hdraws : (call.eligible table).length ≤ draws.length) :
    call.Calls table draws (call.runs table draws).1 (call.runs table draws).2 ∧
      ∀ answers final, call.Calls table draws answers final →
        ∃ order, call.Drained table draws answers final order ∧
          (draws.Nodup →
            ((List.zipWith call.claimed order draws).map Row.leaseToken).Nodup) := by
  refine ⟨call.calls_runs table draws, ?_⟩
  intro answers final hcalls
  obtain ⟨order, hdrained⟩ := ClaimCall.exists_drained hcalls hdraws
  refine ⟨order, hdrained, fun hnodup => ?_⟩
  rw [ClaimCall.leaseToken_claimed]
  refine (hnodup.sublist (List.take_sublist ..)).map ?_
  intro left right htoken
  exact newLeaseToken_injective (Option.some.inj htoken)

/-- Two rows that are due, the later one more urgent, and one that is not due yet. -/
def threeRows : JobTable where
  rows := [JobPaging.pendingRow "job-1" 0,
    { JobPaging.pendingRow "job-2" 0 with taskPriority := 5 },
    { JobPaging.pendingRow "job-3" 0 with scheduledAt := some hour }]
  keyed := by decide
  indexed := by simp [Schema.Compatible, jobs, JobPaging.pendingRow]

def atOneMinute : ClaimCall where
  now := minute
  dbNow := minute
  leaseDuration := minute
  filter := ⟨anyTenant, [], []⟩

def threeDraws : List (Fin 16 → UInt8) :=
  [fun _ => 1, fun _ => 2, fun _ => 3]

theorem claims_drain_queue_threeRows :
    ∃ order, atOneMinute.Drained threeRows threeDraws
      (atOneMinute.runs threeRows threeDraws).1 (atOneMinute.runs threeRows threeDraws).2
      order := by
  have hdraws : (atOneMinute.eligible threeRows).length ≤ threeDraws.length := by decide
  obtain ⟨hcalls, hall⟩ := claims_drain_queue atOneMinute threeRows hdraws
  obtain ⟨order, hdrained, -⟩ := hall _ _ hcalls
  exact ⟨order, hdrained⟩

end Conduit.ClaimDrain
