import Conduit.Core.Keyset
import Conduit.Store.Cursor

/-!
# Paging through the jobs

A walk starts with an empty cursor and hands each cursor it gets to the next call of
`ListJobs`, while the table may change between the calls.  `ListJobs` is one step of keyset
paging, with the creation instant and the id of a row as its key.
-/

namespace Conduit.JobPaging

open JobListing JobStore Keyset Models Relational

/-! ## The order of the list -/

/-- An order of the database on text. -/
structure Collation where
  le : String → String → Bool
  total : ∀ left right, le left right = true ∨ le right left = true
  trans : ∀ {left middle right}, le left middle = true → le middle right = true →
    le left right = true
  antisymm : ∀ {left right}, le left right = true → le right left = true → left = right

def key (row : Row) : ℤ × String := (row.createdAt, row.id)

/-- The first key comes earlier in the list than the second. -/
def Earlier (collation : Collation) (first second : ℤ × String) : Prop :=
  second.1 < first.1 ∨
    (second.1 = first.1 ∧ collation.le second.2 first.2 = true ∧ second.2 ≠ first.2)

variable {collation : Collation}

instance : IsStrictTotalOrder (ℤ × String) (Earlier collation) where
  irrefl position hbefore := by
    rcases hbefore with hlt | ⟨-, -, hne⟩
    · exact lt_irrefl _ hlt
    · exact hne rfl
  trans first second third hfirst hsecond := by
    rcases hfirst with hfirst | ⟨hsame, hle, hne⟩ <;>
      rcases hsecond with hsecond | ⟨hsame', hle', hne'⟩
    · exact .inl (hsecond.trans hfirst)
    · exact .inl (hsame' ▸ hfirst)
    · exact .inl (hsame ▸ hsecond)
    · refine .inr ⟨hsame'.trans hsame, collation.trans hle' hle, ?_⟩
      intro hthird
      rw [hthird] at hle'
      exact hne (collation.antisymm hle hle')
  trichotomous first second hfirst hsecond := by
    rw [Earlier, not_or] at hfirst hsecond
    have hinstant : first.1 = second.1 := by omega
    by_contra hdistinct
    have hid : first.2 ≠ second.2 := fun hid => hdistinct (Prod.ext hinstant hid)
    rcases collation.total first.2 second.2 with hle | hle
    · exact hsecond.2 ⟨hinstant, hle, hid⟩
    · exact hfirst.2 ⟨hinstant.symm, hle, hid.symm⟩

instance : Std.Total (listBefore collation.le) where
  total left right := by
    rcases lt_trichotomy left.createdAt right.createdAt with hlt | hsame | hgt
    · exact .inr (.inl hlt)
    · rcases collation.total right.id left.id with hle | hle
      · exact .inl (.inr ⟨hsame, hle⟩)
      · exact .inr (.inr ⟨hsame.symm, hle⟩)
    · exact .inl (.inl hgt)

instance : IsTrans Row (listBefore collation.le) where
  trans left middle right hleft hright := by
    rcases hleft with hleft | ⟨hsame, hle⟩ <;> rcases hright with hright | ⟨hsame', hle'⟩
    · exact .inl (hright.trans hleft)
    · exact .inl (hsame' ▸ hleft)
    · exact .inl (hsame ▸ hright)
    · exact .inr ⟨hsame.trans hsame', collation.trans hle' hle⟩

/-! ## One call -/

/-- The part of the `WHERE` clause that does not change from page to page. -/
def Matches (filter : ListFilter) (row : Row) : Prop :=
  InTenant filter.tenant row ∧ (filter.state = .unset ∨ row.state = filter.state)

instance (filter : ListFilter) : DecidablePred (Matches filter) := fun _ =>
  inferInstanceAs (Decidable (_ ∧ _))

/-- Every row is one the columns can hold. -/
def Stored (table : JobTable) : Prop :=
  ∀ row ∈ table.rows, Storable row.createdAt row.id

theorem listed_iff {filter : ListFilter} {start : Option (ℤ × String)} {row : Row} :
    Listed collation.le filter start row ↔
      Matches filter row ∧ After (Earlier collation) start (key row) :=
  and_assoc.symm

section Call

variable {table : JobTable} {filter : ListFilter} {start : Option (ℤ × String)}

/-- All rows after a position in the order of the list. -/
def listed (collation : Collation) (filter : ListFilter) (start : Option (ℤ × String))
    (table : JobTable) : List Row :=
  (table.rows.filter (Listed collation.le filter start)).insertionSort
    (listBefore collation.le)

theorem mem_listed {row : Row} :
    row ∈ listed collation filter start table ↔
      row ∈ table.rows.filter (Matches filter) ∧
        After (Earlier collation) start (key row) := by
  rw [listed, List.mem_insertionSort, List.mem_filter, decide_eq_true_eq, listed_iff,
    ← and_assoc, List.mem_filter, decide_eq_true_eq]

/-- Rows have different ids, so the order of the list is strict. -/
theorem pairwise_listed (collation : Collation) (filter : ListFilter)
    (start : Option (ℤ × String)) (table : JobTable) :
    (listed collation filter start table).Pairwise fun first second =>
      Earlier collation (key first) (key second) := by
  have hdistinct : (listed collation filter start table).Pairwise
      fun first second => first.id ≠ second.id := by
    have hperm := List.perm_insertionSort (listBefore collation.le)
      (table.rows.filter (Listed collation.le filter start))
    apply (hperm.pairwise_iff fun hne => Ne.symm hne).mpr
    exact table.keyed.filter _
  have hsorted := List.pairwise_insertionSort (listBefore collation.le)
    (table.rows.filter (Listed collation.le filter start))
  apply (hsorted.and hdistinct).imp
  intro first second hboth
  rcases hboth.1 with hlt | ⟨hsame, hle⟩
  · exact .inl hlt
  · exact .inr ⟨hsame.symm, hle, hboth.2.symm⟩

/-- The extra row is fetched exactly if there is one. -/
theorem page_take {limit : ℕ} (hlimit : 0 < limit) (rows : List Row) :
    page limit ((rows.take (limit + 1)).map scanJob) =
      ((rows.take limit).map scanJob,
        ((if limit < rows.length then rows[limit - 1]?.map key else none).map
          fun position => encodeCursor position.1 position.2).getD "") := by
  have hlength : ((rows.take (limit + 1)).map scanJob).length =
      min (limit + 1) rows.length := by
    rw [List.length_map, List.length_take]
  by_cases hlonger : limit < rows.length
  · have hlast : ((rows.take (limit + 1)).map scanJob)[limit - 1]? =
        some (scanJob rows[limit - 1]) := by
      rw [List.getElem?_map, List.getElem?_take_of_lt (by omega),
        List.getElem?_eq_getElem (by omega)]
      rfl
    rw [page, if_pos (by omega), hlast, if_pos hlonger, List.getElem?_eq_getElem (by omega),
      ← List.map_take, List.take_take, min_eq_left (by omega)]
    rfl
  · rw [page, if_neg (by omega), if_neg hlonger, List.take_of_length_le (by omega),
      List.take_of_length_le (by omega)]
    rfl

/-- `ListJobs` returns a page of the matching rows and a cursor for where it ends. -/
theorem listJobs_isPage (collation : Collation) (filter : ListFilter) {cursor : String}
    (hstored : Stored table)
    (hcursor : position cursor = .ok start) :
    ∃ rows nextCursor next,
      listJobs collation.le table { filter with cursor } = .ok (rows.map scanJob, nextCursor) ∧
      IsPage key (Earlier collation) (table.rows.filter (Matches filter)) start rows next ∧
      (next = none ∧ nextCursor = "" ∨
        next ≠ none ∧ nextCursor ≠ "" ∧ position nextCursor = .ok next) := by
  have hlimit := pageLimit_pos filter.limit
  have hpage := isPage_take (pairwise_listed collation filter start table)
    (fun _ => mem_listed) hlimit
  have hlist : listJobs collation.le table { filter with cursor } =
      .ok (page (pageLimit filter.limit)
        (((listed collation filter start table).take (pageLimit filter.limit + 1)).map
          scanJob)) := by
    rw [listJobs, hcursor]
    rfl
  rw [page_take hlimit] at hlist
  refine ⟨_, _, _, hlist, hpage, ?_⟩
  revert hpage
  generalize (if pageLimit filter.limit < (listed collation filter start table).length then
    (listed collation filter start table)[pageLimit filter.limit - 1]?.map key
    else none) = next
  intro hpage
  cases next with
  | none => exact .inl ⟨rfl, rfl⟩
  | some position =>
      obtain ⟨row, hrow, rfl⟩ := (hpage.last position rfl).1
      have hmem := List.mem_of_mem_filter (hpage.mem row hrow).1
      exact .inr ⟨Option.some_ne_none _, encodeCursor_ne_empty _ _,
        position_encodeCursor (hstored row hmem)⟩

end Call

/-! ## Walks -/

/-- A call of a walk. -/
structure ListCall where
  table : JobTable
  cursor : String
  jobs : List Job
  nextCursor : String

/-- Call `ListJobs` on one table after the other until a page comes without a cursor. -/
def walk (collation : Collation) (filter : ListFilter) :
    List JobTable → String → Except ListError (List ListCall)
  | [], _ => .ok []
  | table :: tables, cursor =>
      match listJobs collation.le table { filter with cursor } with
      | .error err => .error err
      | .ok (jobs, nextCursor) =>
          if nextCursor = "" then .ok [⟨table, cursor, jobs, nextCursor⟩]
          else (walk collation filter tables nextCursor).map
            (⟨table, cursor, jobs, nextCursor⟩ :: ·)

/-- All jobs a walk returned. -/
def returned (calls : List ListCall) : List Job :=
  calls.flatMap ListCall.jobs

/-- A call of the walk is a call of keyset paging. -/
structure Refines (filter : ListFilter) (call : ListCall) (step : Call Row (ℤ × String)) :
    Prop where
  items : step.items = call.table.rows.filter (Matches filter)
  start : position call.cursor = .ok step.start
  jobs : call.jobs = step.page.map scanJob
  next : step.next = none ∧ call.nextCursor = "" ∨
    step.next ≠ none ∧ call.nextCursor ≠ "" ∧ position call.nextCursor = .ok step.next

/-- One call, as a step of the walk and as one of keyset paging. -/
theorem exists_refines (collation : Collation) (filter : ListFilter) {table : JobTable}
    (hstored : Stored table) {cursor : String} {start : Option (ℤ × String)}
    (hcursor : position cursor = .ok start) :
    ∃ call step, Refines filter call step ∧ call.table = table ∧ step.start = start ∧
      IsPage key (Earlier collation) step.items step.start step.page step.next ∧
      ∀ tables, walk collation filter (table :: tables) cursor =
        if step.next = none then .ok [call]
        else (walk collation filter tables call.nextCursor).map (call :: ·) := by
  obtain ⟨rows, nextCursor, next, hlist, hpage, hnext⟩ :=
    listJobs_isPage collation filter hstored hcursor
  refine ⟨⟨table, cursor, rows.map scanJob, nextCursor⟩,
    ⟨table.rows.filter (Matches filter), start, rows, next⟩, ⟨rfl, hcursor, rfl, hnext⟩, rfl,
    rfl, hpage, ?_⟩
  intro tables
  rw [walk, hlist]
  rcases hnext with ⟨hnone, hempty⟩ | ⟨hsome, hnonempty, -⟩
  · dsimp only
    rw [if_pos hempty, if_pos hnone]
  · dsimp only
    rw [if_neg hnonempty, if_neg hsome]

/-- Every walk over tables of stored rows is a walk of keyset paging. -/
theorem exists_walk (collation : Collation) (filter : ListFilter) {tables : List JobTable}
    (hstored : ∀ table ∈ tables, Stored table) {cursor : String}
    {start : Option (ℤ × String)} (hcursor : position cursor = .ok start) :
    ∃ calls steps, walk collation filter tables cursor = .ok calls ∧
      (∀ call ∈ calls, call.table ∈ tables) ∧ IsWalk key (Earlier collation) start steps ∧
      List.Forall₂ (Refines filter) calls steps := by
  induction tables generalizing cursor start with
  | nil => exact ⟨[], [], rfl, by simp, trivial, .nil⟩
  | cons table tables ih =>
      obtain ⟨htable, htables⟩ := List.forall_mem_cons.mp hstored
      obtain ⟨call, step, hrefines, rfl, rfl, hpage, hwalk⟩ :=
        exists_refines collation filter htable hcursor
      rcases hrefines.next with ⟨hnone, -⟩ | ⟨hsome, -, hposition⟩
      · refine ⟨[call], [step], ?_, ?_, ⟨rfl, hpage, fun _ => rfl, trivial⟩,
          .cons hrefines .nil⟩
        · rw [hwalk, if_pos hnone]
        · simp
      · obtain ⟨calls, steps, hcalls, htable', hsteps, hall⟩ := ih htables hposition
        refine ⟨call :: calls, step :: steps, ?_, ?_,
          ⟨rfl, hpage, fun hnone => absurd hnone hsome, hsteps⟩, .cons hrefines hall⟩
        · rw [hwalk, if_neg hsome, hcalls]
          rfl
        · intro other hother
          rcases List.mem_cons.mp hother with rfl | hother
          · exact List.mem_cons_self
          · exact List.mem_cons_of_mem _ (htable' other hother)

/-- On a table that does not change a walk comes to its end. -/
theorem exists_ended_walk (collation : Collation) (filter : ListFilter) {table : JobTable}
    (hstored : Stored table) {cursor : String} {start : Option (ℤ × String)}
    (hcursor : position cursor = .ok start) :
    ∃ count calls steps,
      (∀ more, walk collation filter (List.replicate (count + more) table) cursor =
        .ok calls) ∧
      IsWalk key (Earlier collation) start steps ∧ List.Forall₂ (Refines filter) calls steps ∧
      (∀ call ∈ calls, call.table = table) ∧ ∃ call ∈ calls, call.nextCursor = "" := by
  induction hahead : ahead key (Earlier collation) (table.rows.filter (Matches filter)) start
    using Nat.strong_induction_on generalizing cursor start with
  | _ count ih =>
      obtain ⟨call, step, hrefines, rfl, rfl, hpage, hwalk⟩ :=
        exists_refines collation filter hstored hcursor
      rcases hrefines.next with ⟨hnone, hempty⟩ | ⟨hsome, -, hposition⟩
      · refine ⟨1, [call], [step], ?_, ⟨rfl, hpage, fun _ => rfl, trivial⟩,
          .cons hrefines .nil, by simp, call, List.mem_cons_self, hempty⟩
        intro more
        rw [Nat.add_comm, List.replicate_succ, hwalk, if_pos hnone]
      · have hfewer := hpage.ahead_lt hsome
        rw [hrefines.items, hahead] at hfewer
        obtain ⟨fewer, calls, steps, hcalls, hsteps, hall, htable, hended⟩ :=
          ih _ hfewer hposition rfl
        refine ⟨fewer + 1, call :: calls, step :: steps, ?_,
          ⟨rfl, hpage, fun hnone => absurd hnone hsome, hsteps⟩, .cons hrefines hall, ?_, ?_⟩
        · intro more
          rw [Nat.add_right_comm, List.replicate_succ, hwalk, if_neg hsome, hcalls]
          rfl
        · exact List.forall_mem_cons.mpr ⟨rfl, htable⟩
        · obtain ⟨last, hlast, hempty⟩ := hended
          exact ⟨last, List.mem_cons_of_mem _ hlast, hempty⟩

section Results

variable {filter : ListFilter} {calls : List ListCall} {steps : List (Call Row (ℤ × String))}

theorem returned_eq (hrefines : List.Forall₂ (Refines filter) calls steps) :
    returned calls = (itemsRead steps).map scanJob := by
  induction hrefines with
  | nil => rfl
  | cons hcall _ ih =>
      rw [returned, List.flatMap_cons, itemsRead, List.flatMap_cons, List.map_append, hcall.jobs]
      exact congrArg _ ih

theorem exists_call (hrefines : List.Forall₂ (Refines filter) calls steps)
    {step : Call Row (ℤ × String)} (hstep : step ∈ steps) :
    ∃ call ∈ calls, Refines filter call step := by
  induction hrefines with
  | nil => cases hstep
  | cons hcall _ ih =>
      rcases List.mem_cons.mp hstep with rfl | hstep
      · exact ⟨_, List.mem_cons_self, hcall⟩
      · obtain ⟨call, hcall, hrefines⟩ := ih hstep
        exact ⟨call, List.mem_cons_of_mem _ hcall, hrefines⟩

theorem exists_step (hrefines : List.Forall₂ (Refines filter) calls steps) {call : ListCall}
    (hcall : call ∈ calls) : ∃ step ∈ steps, Refines filter call step := by
  induction hrefines with
  | nil => cases hcall
  | cons hstep _ ih =>
      rcases List.mem_cons.mp hcall with rfl | hcall
      · exact ⟨_, List.mem_cons_self, hstep⟩
      · obtain ⟨step, hstep, hrefines⟩ := ih hcall
        exact ⟨step, List.mem_cons_of_mem _ hstep, hrefines⟩

/-- What a walk has read was in one of its tables and matched. -/
theorem exists_table (hrefines : List.Forall₂ (Refines filter) calls steps)
    {start : Option (ℤ × String)} (hwalk : IsWalk key (Earlier collation) start steps)
    {row : Row} (hrow : row ∈ itemsRead steps) :
    ∃ call ∈ calls, row ∈ call.table.rows ∧ Matches filter row := by
  obtain ⟨step, hstep, hpage⟩ := List.mem_flatMap.mp hrow
  obtain ⟨call, hcall, hrefine⟩ := exists_call hrefines hstep
  have hitem := (hwalk.isPage hstep).mem row hpage
  rw [hrefine.items, List.mem_filter, decide_eq_true_eq] at hitem
  exact ⟨call, hcall, hitem.1⟩

/-- The job at that place in the list has not been read over by a walk at that cursor. -/
def AheadOf (collation : Collation) (cursor : String) (job : ℤ × String) : Prop :=
  ∃ start, position cursor = .ok start ∧ After (Earlier collation) start job

/-- A walk that got that cursor for the next page is past the job. -/
def Passed (collation : Collation) (nextCursor : String) (job : ℤ × String) : Prop :=
  nextCursor = "" ∨ ¬ AheadOf collation nextCursor job

/-- A job that is there and matches until the walk is past it is read. -/
theorem exists_read (hrefines : List.Forall₂ (Refines filter) calls steps)
    (hwalk : IsWalk key (Earlier collation) none steps) (job : ℤ × String)
    (hstays : ∀ call ∈ calls, AheadOf collation call.cursor job →
      ∃ row ∈ call.table.rows, key row = job ∧ Matches filter row)
    (hpassed : ∃ call ∈ calls, Passed collation call.nextCursor job) :
    ∃ row ∈ itemsRead steps, key row = job := by
  apply hwalk.complete
  · intro position hposition
    cases hposition
  · intro step hstep hafter
    obtain ⟨call, hcall, hrefine⟩ := exists_call hrefines hstep
    obtain ⟨row, hrow, hkey, hmatches⟩ := hstays call hcall ⟨_, hrefine.start, hafter⟩
    refine ⟨row, ?_, hkey⟩
    rw [hrefine.items, List.mem_filter, decide_eq_true_eq]
    exact ⟨hrow, hmatches⟩
  · obtain ⟨call, hcall, hbeyond⟩ := hpassed
    obtain ⟨step, hstep, hrefine⟩ := exists_step hrefines hcall
    refine ⟨step, hstep, ?_⟩
    intro position hposition hlt
    rcases hrefine.next with ⟨hnone, -⟩ | ⟨-, hnonempty, hnext⟩
    · rw [hnone] at hposition
      cases hposition
    · refine (hbeyond.resolve_left hnonempty) ⟨_, hnext, ?_⟩
      intro other hother
      rw [Option.mem_unique hother hposition]
      exact hlt

end Results

/-- A job keeps its creation instant in all tables of a walk. -/
def CreatedOnce (tables : List JobTable) : Prop :=
  ∀ before ∈ tables, ∀ after ∈ tables, ∀ row ∈ before.rows, ∀ other ∈ after.rows,
    row.id = other.id → row.createdAt = other.createdAt

/-- No walk returns a job twice. -/
theorem nodup_returned {filter : ListFilter} {tables : List JobTable}
    (hcreated : CreatedOnce tables) {calls : List ListCall}
    {steps : List (Call Row (ℤ × String))} (htables : ∀ call ∈ calls, call.table ∈ tables)
    (hrefines : List.Forall₂ (Refines filter) calls steps) {start : Option (ℤ × String)}
    (hwalk : IsWalk key (Earlier collation) start steps) :
    ((returned calls).map Job.id).Nodup := by
  rw [returned_eq hrefines, List.map_map, List.Nodup, List.pairwise_map]
  apply hwalk.pairwise.imp_of_mem
  intro first second hfirst hsecond hearlier hsame
  obtain ⟨call, hcall, hrow, -⟩ := exists_table hrefines hwalk hfirst
  obtain ⟨other, hother, hrow', -⟩ := exists_table hrefines hwalk hsecond
  have hinstant := hcreated _ (htables call hcall) _ (htables other hother) _ hrow _ hrow' hsame
  have hkey : key first = key second := Prod.ext hinstant hsame
  rw [hkey] at hearlier
  exact irrefl_of (Earlier collation) _ hearlier

/-- The rows a walk over one table has read once it is past all of them. -/
theorem perm_itemsRead {filter : ListFilter} {table : JobTable} {calls : List ListCall}
    {steps : List (Call Row (ℤ × String))} (htable : ∀ call ∈ calls, call.table = table)
    (hrefines : List.Forall₂ (Refines filter) calls steps)
    (hwalk : IsWalk key (Earlier collation) none steps)
    (hended : ∃ call ∈ calls, call.nextCursor = "") :
    (itemsRead steps).Perm (table.rows.filter (Matches filter)) := by
  have hnodup : (itemsRead steps).Nodup := by
    apply hwalk.pairwise.imp
    intro first second hearlier hsame
    rw [hsame] at hearlier
    exact irrefl_of (Earlier collation) _ hearlier
  rw [List.perm_ext_iff_of_nodup hnodup (table.nodup.filter _)]
  intro row
  rw [List.mem_filter, decide_eq_true_eq]
  constructor
  · intro hrow
    obtain ⟨call, hcall, hmem⟩ := exists_table hrefines hwalk hrow
    rw [htable call hcall] at hmem
    exact hmem
  · intro hrow
    obtain ⟨last, hlast, hempty⟩ := hended
    obtain ⟨other, hother, hkey⟩ := exists_read hrefines hwalk (key row)
      (fun call hcall _ => ⟨row, htable call hcall ▸ hrow.1, rfl, hrow.2⟩)
      ⟨last, hlast, .inl hempty⟩
    obtain ⟨call, hcall, hmem, -⟩ := exists_table hrefines hwalk hother
    rw [htable call hcall] at hmem
    have hsame : other = row := table.key_unique hmem hrow.1 (congrArg Prod.snd hkey)
    rw [← hsame]
    exact hother

/-- A walk over a table that does not change ends and returns the matching rows in order,
each once.  A walk over a changing table returns no job twice, and a job once if it exists
and matches until the walk is past it. -/
theorem walk_returns_once (collation : Collation) (filter : ListFilter) :
    (∀ table, Stored table → ∃ (count : ℕ) (calls : List ListCall) (rows : List Row),
      (∀ more, walk collation filter (List.replicate (count + more) table) "" = .ok calls) ∧
      (∃ call ∈ calls, call.nextCursor = "") ∧ returned calls = rows.map scanJob ∧
      rows.Perm (table.rows.filter (Matches filter)) ∧
      rows.Pairwise (listBefore collation.le)) ∧
    ∀ tables, (∀ table ∈ tables, Stored table) → CreatedOnce tables → ∃ calls,
      walk collation filter tables "" = .ok calls ∧
      ((returned calls).map Job.id).Nodup ∧
      ∀ createdAt id,
        (∀ call ∈ calls, AheadOf collation call.cursor (createdAt, id) →
          ∃ row ∈ call.table.rows, key row = (createdAt, id) ∧ Matches filter row) →
        (∃ call ∈ calls, Passed collation call.nextCursor (createdAt, id)) →
        ((returned calls).map Job.id).count id = 1 := by
  have hfirst : position "" = .ok none := if_pos rfl
  constructor
  · intro table hstored
    obtain ⟨count, calls, steps, hcalls, hwalk, hrefines, htable, hended⟩ :=
      exists_ended_walk collation filter hstored hfirst
    refine ⟨count, calls, itemsRead steps, hcalls, hended, returned_eq hrefines,
      perm_itemsRead htable hrefines hwalk hended, ?_⟩
    apply hwalk.pairwise.imp
    intro first second hearlier
    rcases hearlier with hlt | ⟨hsame, hle, -⟩
    · exact .inl hlt
    · exact .inr ⟨hsame.symm, hle⟩
  · intro tables hstored hcreated
    obtain ⟨calls, steps, hcalls, htables, hwalk, hrefines⟩ :=
      exists_walk collation filter hstored hfirst
    have hnodup := nodup_returned hcreated htables hrefines hwalk
    refine ⟨calls, hcalls, hnodup, ?_⟩
    intro createdAt id hstays hpassed
    obtain ⟨row, hrow, hkey⟩ := exists_read hrefines hwalk _ hstays hpassed
    apply List.count_eq_one_of_mem hnodup
    rw [returned_eq hrefines, List.map_map]
    exact List.mem_map.mpr ⟨row, hrow, congrArg Prod.snd hkey⟩

/-! ## Two jobs of the same instant -/

/-- Text in the order of its code points. -/
def codePoints : Collation where
  le left right := decide (left ≤ right)
  total left right := by
    rw [decide_eq_true_eq, decide_eq_true_eq]
    exact String.le_total left right
  trans hleft hright := by
    rw [decide_eq_true_eq] at hleft hright ⊢
    exact String.le_trans hleft hright
  antisymm hleft hright := by
    rw [decide_eq_true_eq] at hleft hright
    exact String.le_antisymm hleft hright

def pendingRow (id : String) (createdAt : ℤ) : Row where
  id
  idempotencyKey := none
  taskID := ""
  taskName := "report"
  taskPayload := none
  taskRetryCount := 0
  taskMaxRetries := 3
  taskTimeoutNs := 0
  taskCronExpr := ""
  taskQueue := ""
  taskMetadata := .emptyObject
  state := .pending
  attempt := 0
  lastError := ""
  scheduledAt := none
  startedAt := none
  leaseExpiresAt := none
  leaseToken := none
  completedAt := none
  createdAt
  updatedAt := createdAt
  metadata := .emptyObject
  tenantID := "default"
  taskPriority := 0

def twoJobs : JobTable where
  rows := [pendingRow "job-1" (ofUnixMicro y2k), pendingRow "job|2" (ofUnixMicro y2k)]
  keyed := by decide
  indexed := List.pairwise_pair.mpr (.inl rfl)

theorem createdAt_twoJobs {row : Row} (hrow : row ∈ twoJobs.rows) :
    row.createdAt = ofUnixMicro y2k := by
  rcases List.mem_cons.mp hrow with rfl | hrow
  · rfl
  · rw [List.mem_singleton.mp hrow]
    rfl

theorem stored_twoJobs : Stored twoJobs := by
  intro row hrow
  constructor
  · refine ⟨0, by decide, ?_⟩
    rw [createdAt_twoJobs hrow, add_zero]
  · rcases List.mem_cons.mp hrow with rfl | hrow
    · decide
    · rw [List.mem_singleton.mp hrow]
      decide

/-- Pages of one job each, to the end and over the first two. -/
theorem walk_returns_once_twoJobs :
    Stored twoJobs ∧
    (∃ count calls, walk codePoints ⟨"default", .pending, 1, ""⟩
        (List.replicate count twoJobs) "" = .ok calls ∧
      ((returned calls).map Job.id).Perm ["job-1", "job|2"]) ∧
    ∃ calls, walk codePoints ⟨"default", .pending, 1, ""⟩ [twoJobs, twoJobs] "" = .ok calls ∧
      ((returned calls).map Job.id).Nodup := by
  have hstored : ∀ table ∈ [twoJobs, twoJobs], Stored table := by
    simp [stored_twoJobs]
  have hcreated : CreatedOnce [twoJobs, twoJobs] := by
    simp only [CreatedOnce, List.mem_cons, List.not_mem_nil, or_false, or_self, forall_eq]
    intro row hrow other hother _
    rw [createdAt_twoJobs hrow, createdAt_twoJobs hother]
  obtain ⟨⟨count, ended, rows, hended, -, hreturned, hperm, -⟩, ⟨calls, hcalls, hnodup, -⟩⟩ :=
    (walk_returns_once codePoints ⟨"default", .pending, 1, ""⟩).imp
      (fun hall => hall twoJobs stored_twoJobs) fun hall => hall _ hstored hcreated
  refine ⟨stored_twoJobs, ⟨count, ended, hended 0, ?_⟩, calls, hcalls, hnodup⟩
  rw [hreturned, List.map_map]
  exact hperm.map _

end Conduit.JobPaging
