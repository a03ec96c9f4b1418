import Mathlib.Data.List.Sort
import Mathlib.Data.List.Pairwise

/-!
# Relational tables with a primary key and one unique index

A table is a list of rows whose primary keys are distinct and whose partial
index entries are distinct.  Both constraints are fields, so a table that
violates them cannot be built: an insert that would break one is refused, and
an update statement carries the proof that it leaves the key and the index
entry of every row alone.
-/

namespace Conduit.Relational

variable {Row Key Index : Type*}

/-- Which columns form the primary key and the (partial) unique index.  A row
whose index entry is `none` is outside the index. -/
structure Schema (Row Key Index : Type*) where
  key : Row → Key
  index : Row → Option Index

/-- Two rows the unique index accepts side by side. -/
def Schema.Compatible (schema : Schema Row Key Index) (left right : Row) : Prop :=
  schema.index left = none ∨ schema.index left ≠ schema.index right

@[ext]
structure Table (schema : Schema Row Key Index) where
  rows : List Row
  keyed : rows.Pairwise fun left right => schema.key left ≠ schema.key right
  indexed : rows.Pairwise schema.Compatible

/-- `UPDATE ... SET set WHERE selects`. -/
structure Update (schema : Schema Row Key Index) where
  selects : Row → Prop
  decides : DecidablePred selects
  set : Row → Row
  key_set : ∀ row, schema.key (set row) = schema.key row
  index_set : ∀ row, schema.index (set row) = schema.index row

instance {schema : Schema Row Key Index} (update : Update schema) :
    DecidablePred update.selects :=
  update.decides

inductive InsertError
  | primaryKey
  | uniqueIndex
  deriving DecidableEq

/-- `SELECT ... WHERE selects ORDER BY before LIMIT limit`. -/
def selectOrdered (before : Row → Row → Prop) [DecidableRel before]
    (selects : Row → Prop) [DecidablePred selects] (limit : ℕ)
    (rows : List Row) : List Row :=
  ((rows.filter selects).insertionSort before).take limit

theorem mem_selectOrdered {before : Row → Row → Prop} [DecidableRel before]
    {selects : Row → Prop} [DecidablePred selects] {limit : ℕ}
    {rows : List Row} {row : Row}
    (hrow : row ∈ selectOrdered before selects limit rows) :
    row ∈ rows ∧ selects row := by
  have hsorted := List.mem_of_mem_take hrow
  rw [List.mem_insertionSort, List.mem_filter, decide_eq_true_eq] at hsorted
  exact hsorted

theorem nodup_selectOrdered {before : Row → Row → Prop} [DecidableRel before]
    {selects : Row → Prop} [DecidablePred selects] {limit : ℕ} {rows : List Row}
    (hnodup : rows.Nodup) : (selectOrdered before selects limit rows).Nodup :=
  ((List.perm_insertionSort before _).nodup_iff.mpr (hnodup.filter _)).sublist
    (List.take_sublist ..)

theorem length_selectOrdered (before : Row → Row → Prop) [DecidableRel before]
    (selects : Row → Prop) [DecidablePred selects] (limit : ℕ) (rows : List Row) :
    (selectOrdered before selects limit rows).length =
      min (rows.countP (selects ·)) limit := by
  rw [selectOrdered, List.length_take, List.length_insertionSort, List.countP_eq_length_filter,
    Nat.min_comm]

/-- A limit that is large enough drops nothing. -/
theorem mem_selectOrdered_of_length_le {before : Row → Row → Prop} [DecidableRel before]
    {selects : Row → Prop} [DecidablePred selects] {limit : ℕ}
    {rows : List Row} {row : Row} (hrow : row ∈ rows) (hselects : selects row)
    (hlimit : rows.length ≤ limit) : row ∈ selectOrdered before selects limit rows := by
  have hlength : ((rows.filter selects).insertionSort before).length ≤ limit := by
    rw [List.length_insertionSort]
    exact le_trans (List.length_filter_le ..) hlimit
  rw [selectOrdered, List.take_of_length_le hlength, List.mem_insertionSort, List.mem_filter,
    decide_eq_true_eq]
  exact ⟨hrow, hselects⟩

/-- A limit that is not reached drops nothing. -/
theorem mem_selectOrdered_of_length_lt {before : Row → Row → Prop} [DecidableRel before]
    {selects : Row → Prop} [DecidablePred selects] {limit : ℕ} {rows : List Row} {row : Row}
    (hlimit : (selectOrdered before selects limit rows).length < limit) (hrow : row ∈ rows)
    (hselects : selects row) : row ∈ selectOrdered before selects limit rows := by
  rw [selectOrdered, List.length_take] at hlimit
  rw [selectOrdered, List.take_of_length_le (by omega), List.mem_insertionSort, List.mem_filter,
    decide_eq_true_eq]
  exact ⟨hrow, hselects⟩

/-- What a limit leaves out comes after what it lets through. -/
theorem before_of_notMem_selectOrdered {before : Row → Row → Prop} [DecidableRel before]
    [Std.Total before] [IsTrans Row before] {selects : Row → Prop} [DecidablePred selects]
    {limit : ℕ} {rows : List Row} {row other : Row} (hrow : row ∈ rows) (hselects : selects row)
    (hleft : row ∉ selectOrdered before selects limit rows)
    (hother : other ∈ selectOrdered before selects limit rows) : before other row := by
  have hsorted := List.pairwise_insertionSort before (rows.filter selects)
  have hmem : row ∈ (rows.filter selects).insertionSort before := by
    rw [List.mem_insertionSort, List.mem_filter, decide_eq_true_eq]
    exact ⟨hrow, hselects⟩
  rw [← List.take_append_drop limit ((rows.filter selects).insertionSort before)] at hsorted hmem
  rw [List.pairwise_append] at hsorted
  exact hsorted.2.2 other hother row ((List.mem_append.mp hmem).resolve_left hleft)

/-- The first selected row comes before all the others. -/
theorem before_of_head_selectOrdered {before : Row → Row → Prop} [DecidableRel before]
    [Std.Total before] [IsTrans Row before] {selects : Row → Prop} [DecidablePred selects]
    {limit : ℕ} {rows : List Row} {row other : Row}
    (hhead : (selectOrdered before selects limit rows).head? = some row)
    (hother : other ∈ rows) (hselects : selects other) : before row other := by
  by_cases hmem : other ∈ selectOrdered before selects limit rows
  · have hsorted : (selectOrdered before selects limit rows).Pairwise before :=
      (List.pairwise_insertionSort before (rows.filter selects)).sublist (List.take_sublist ..)
    obtain ⟨others, hothers⟩ := List.head?_eq_some_iff.mp hhead
    rw [hothers] at hsorted hmem
    rcases List.mem_cons.mp hmem with rfl | htail
    · exact (Std.Total.total (r := before) other other).elim id id
    · exact (List.pairwise_cons.mp hsorted).1 other htail
  · exact before_of_notMem_selectOrdered hother hselects hmem (List.mem_of_head? hhead)

/-- A limit of at least one leaves nothing over only if there was nothing. -/
theorem not_selects_of_selectOrdered_eq_nil {before : Row → Row → Prop} [DecidableRel before]
    {selects : Row → Prop} [DecidablePred selects] {limit : ℕ} (hlimit : 0 < limit)
    {rows : List Row} (hnil : selectOrdered before selects limit rows = []) {row : Row}
    (hrow : row ∈ rows) : ¬ selects row := by
  intro hselects
  rw [selectOrdered, List.take_eq_nil_iff, or_iff_right hlimit.ne'] at hnil
  have hmem : row ∈ (rows.filter selects).insertionSort before := by
    rw [List.mem_insertionSort, List.mem_filter, decide_eq_true_eq]
    exact ⟨hrow, hselects⟩
  rw [hnil] at hmem
  cases hmem

/-- The first `limit` entries have as many good ones as they can exactly when all of
them are good or all the good ones are among them. -/
theorem min_countP_le_countP_take_iff {entries : List Row} {limit : ℕ} {good : Row → Bool} :
    min limit (entries.countP good) ≤ (entries.take limit).countP good ↔
      (∀ entry ∈ entries.take limit, good entry = true) ∨
        ∀ entry ∈ entries.drop limit, good entry ≠ true := by
  have hsplit : entries.countP good =
      (entries.take limit).countP good + (entries.drop limit).countP good := by
    rw [← List.countP_append, List.take_append_drop]
  have hlength : (entries.take limit).length = min limit entries.length := List.length_take
  have hle := List.countP_le_length (p := good) (l := entries.take limit)
  have hdrop : limit < entries.length ∨ (entries.drop limit).countP good = 0 := by
    by_cases hlimit : limit < entries.length
    · exact .inl hlimit
    · rw [List.drop_of_length_le (Nat.le_of_not_lt hlimit)]
      exact .inr rfl
  rw [← List.countP_eq_length, ← List.countP_eq_zero]
  omega

namespace Table

variable {schema : Schema Row Key Index}

theorem nodup (table : Table schema) : table.rows.Nodup := by
  apply table.keyed.imp
  intro left right hkey hsame
  exact hkey (congrArg schema.key hsame)

def empty (schema : Schema Row Key Index) : Table schema where
  rows := []
  keyed := .nil
  indexed := .nil

/-- Rows an update statement changes, as they were before it. -/
def affected (table : Table schema) (update : Update schema) : List Row :=
  table.rows.filter update.selects

def exec (table : Table schema) (update : Update schema) : Table schema where
  rows := table.rows.map fun row =>
    if update.selects row then update.set row else row
  keyed := by
    refine List.pairwise_map.2 (table.keyed.imp ?_)
    intro left right hne
    split <;> split <;> simpa only [update.key_set] using hne
  indexed := by
    refine List.pairwise_map.2 (table.indexed.imp ?_)
    intro left right hcompatible
    unfold Schema.Compatible at hcompatible ⊢
    split <;> split <;> simpa only [update.index_set] using hcompatible

def delete (table : Table schema) (selects : Row → Prop)
    [DecidablePred selects] : Table schema where
  rows := table.rows.filter fun row => ¬ selects row
  keyed := table.keyed.filter _
  indexed := table.indexed.filter _

theorem key_unique (table : Table schema) {left right : Row}
    (hleft : left ∈ table.rows) (hright : right ∈ table.rows)
    (hkey : schema.key left = schema.key right) : left = right := by
  by_contra hne
  have : Std.Symm fun left right : Row => schema.key left ≠ schema.key right :=
    ⟨fun _ _ h => h.symm⟩
  exact table.keyed.forall hleft hright hne hkey

/-- Some rows of a table are known by their keys. -/
theorem key_mem_map_iff (table : Table schema) {taken : List Row} (htaken : taken ⊆ table.rows)
    {row : Row} (hrow : row ∈ table.rows) :
    schema.key row ∈ taken.map schema.key ↔ row ∈ taken := by
  refine ⟨fun hkey => ?_, List.mem_map_of_mem⟩
  obtain ⟨other, hother, hsame⟩ := List.mem_map.mp hkey
  rwa [← table.key_unique (htaken hother) hrow hsame]

theorem index_unique (table : Table schema) {left right : Row} {entry : Index}
    (hleft : left ∈ table.rows) (hright : right ∈ table.rows)
    (hleftEntry : schema.index left = some entry)
    (hrightEntry : schema.index right = some entry) : left = right := by
  by_contra hne
  have : Std.Symm schema.Compatible := ⟨fun _ _ h => by
    unfold Schema.Compatible at h ⊢
    by_cases hnone : schema.index ‹_› = none <;> grind⟩
  rcases table.indexed.forall hleft hright hne with hnone | hdistinct
  · simp [hleftEntry] at hnone
  · exact hdistinct (hleftEntry.trans hrightEntry.symm)

@[simp]
theorem mem_affected {table : Table schema} {update : Update schema} {row : Row} :
    row ∈ table.affected update ↔ row ∈ table.rows ∧ update.selects row := by
  rw [affected, List.mem_filter, decide_eq_true_eq]

theorem mem_exec {table : Table schema} {update : Update schema} {row : Row} :
    row ∈ (table.exec update).rows ↔
      ∃ old ∈ table.rows,
        (if update.selects old then update.set old else old) = row :=
  List.mem_map

theorem map_eq_self {update : Update schema} {rows : List Row}
    (hnone : ∀ row ∈ rows, ¬ update.selects row) :
    (rows.map fun row => if update.selects row then update.set row else row) = rows := by
  conv_rhs => rw [← List.map_id rows]
  refine List.map_congr_left fun row hrow => ?_
  rw [if_neg (hnone row hrow), id]

/-- An update that selects nothing changes nothing. -/
theorem exec_eq_self {table : Table schema} {update : Update schema}
    (hnone : table.affected update = []) : table.exec update = table := by
  apply Table.ext
  apply map_eq_self
  intro row hrow hselects
  have hmem : row ∈ table.affected update := mem_affected.2 ⟨hrow, hselects⟩
  rw [hnone] at hmem
  cases hmem

/-- An update of one row, found by its key, leaves the rows around it alone. -/
theorem exec_split {table : Table schema} {update : Update schema} {row : Row}
    (hrow : row ∈ table.rows)
    (hselects : ∀ other, update.selects other ↔ schema.key other = schema.key row) :
    ∃ before after, table.rows = before ++ row :: after ∧
      (table.exec update).rows = before ++ update.set row :: after := by
  obtain ⟨before, after, hsplit⟩ := List.append_of_mem hrow
  have hdistinct := table.keyed
  rw [hsplit, List.pairwise_append, List.pairwise_cons] at hdistinct
  obtain ⟨-, ⟨hafter, -⟩, hbefore⟩ := hdistinct
  refine ⟨before, after, hsplit, ?_⟩
  change table.rows.map _ = _
  rw [hsplit, List.map_append, List.map_cons, if_pos ((hselects row).mpr rfl)]
  congr 1
  · apply map_eq_self
    intro other hother hselected
    exact hbefore other hother row List.mem_cons_self ((hselects other).mp hselected)
  · congr 1
    apply map_eq_self
    intro other hother hselected
    exact hafter other hother ((hselects other).mp hselected).symm

/-- A property of rows survives an update that keeps it on the rows it
selects. -/
theorem exec_forall {table : Table schema} {update : Update schema}
    {Holds : Row → Prop} (hrows : ∀ row ∈ table.rows, Holds row)
    (hset : ∀ row ∈ table.rows, update.selects row →
      Holds row → Holds (update.set row)) :
    ∀ row ∈ (table.exec update).rows, Holds row := by
  intro row hrow
  obtain ⟨old, hold, rfl⟩ := mem_exec.1 hrow
  split
  · exact hset old hold ‹_› (hrows old hold)
  · exact hrows old hold

section Emit

variable [DecidableEq Key] {Message : Type*}
  {emit : Row → List Message} {about : Message → Option Key}

/-- Messages a list of rows emits about a key that none of them has. -/
theorem filter_flatMap_emit_of_forall_ne {rows : List Row} {key : Key}
    (habout : ∀ row, ∀ message ∈ emit row, about message = some (schema.key row))
    (hkey : ∀ row ∈ rows, schema.key row ≠ key) :
    (rows.flatMap emit).filter (fun message => about message = some key) = [] := by
  rw [List.filter_eq_nil_iff]
  intro message hmessage
  obtain ⟨row, hrow, hemit⟩ := List.mem_flatMap.1 hmessage
  rw [decide_eq_true_eq, habout row message hemit, Option.some.injEq]
  exact hkey row hrow

/-- Keys being distinct, what an update emits about the key of a row is what it
emits for that row. -/
theorem filter_flatMap_emit (table : Table schema) (update : Update schema)
    (habout : ∀ row, ∀ message ∈ emit row, about message = some (schema.key row))
    {row : Row} (hrow : row ∈ table.rows) :
    ((table.affected update).flatMap emit).filter
        (fun message => about message = some (schema.key row)) =
      if update.selects row then emit row else [] := by
  obtain ⟨before, after, hsplit⟩ := List.append_of_mem hrow
  have hdistinct := table.keyed
  rw [hsplit, List.pairwise_append, List.pairwise_cons] at hdistinct
  obtain ⟨-, ⟨hafter, -⟩, hbefore⟩ := hdistinct
  have hbefore' : ∀ other ∈ before.filter update.selects,
      schema.key other ≠ schema.key row := fun other hother =>
    hbefore other (List.mem_of_mem_filter hother) row (List.mem_cons_self ..)
  have hafter' : ∀ other ∈ after.filter update.selects,
      schema.key other ≠ schema.key row := fun other hother =>
    (hafter other (List.mem_of_mem_filter hother)).symm
  have hown : (emit row).filter (fun message => about message = some (schema.key row)) =
      emit row :=
    List.filter_eq_self.2 fun message hmessage =>
      decide_eq_true (habout row message hmessage)
  rw [affected, hsplit, List.filter_append, List.filter_cons, List.flatMap_append,
    List.filter_append, filter_flatMap_emit_of_forall_ne habout hbefore', List.nil_append]
  by_cases hselects : update.selects row
  · rw [if_pos (decide_eq_true hselects), if_pos hselects, List.flatMap_cons,
      List.filter_append, filter_flatMap_emit_of_forall_ne habout hafter', hown,
      List.append_nil]
  · rw [if_neg (by simpa using hselects), if_neg hselects,
      filter_flatMap_emit_of_forall_ne habout hafter']

end Emit

@[simp]
theorem mem_delete {table : Table schema} {selects : Row → Prop}
    [DecidablePred selects] {row : Row} :
    row ∈ (table.delete selects).rows ↔ row ∈ table.rows ∧ ¬ selects row := by
  rw [delete, List.mem_filter, decide_eq_true_eq]

section Insert

variable [DecidableEq Key] [DecidableEq Index]

/-- `INSERT`, refused when it would repeat a primary key or an index entry.
The primary key is checked first. -/
def insert (table : Table schema) (row : Row) :
    Except InsertError (Table schema) :=
  if hkey : ∀ other ∈ table.rows, schema.key other ≠ schema.key row then
    if hindex : ∀ other ∈ table.rows,
        schema.index other = none ∨ schema.index other ≠ schema.index row then
      .ok {
        rows := table.rows ++ [row]
        keyed := List.pairwise_append.2 ⟨table.keyed, List.pairwise_singleton _ _,
          fun other hother new hnew => by
            rw [List.mem_singleton] at hnew
            exact hnew ▸ hkey other hother⟩
        indexed := List.pairwise_append.2
          ⟨table.indexed, List.pairwise_singleton _ _,
            fun other hother new hnew => by
              rw [List.mem_singleton] at hnew
              exact hnew ▸ hindex other hother⟩ }
    else .error .uniqueIndex
  else .error .primaryKey

/-- What a successful insert says about the table before and after it. -/
theorem insert_eq_ok {table table' : Table schema} {row : Row}
    (hinsert : table.insert row = .ok table') :
    table'.rows = table.rows ++ [row] ∧
      (∀ other ∈ table.rows, schema.key other ≠ schema.key row) ∧
      ∀ other ∈ table.rows, schema.Compatible other row := by
  rw [insert] at hinsert
  split at hinsert
  · split at hinsert
    · cases hinsert
      exact ⟨rfl, ‹_›, ‹_›⟩
    · cases hinsert
  · cases hinsert

/-- A repeated primary key is reported before a repeated index entry. -/
theorem insert_eq_error {table : Table schema} {row : Row} {err : InsertError}
    (hinsert : table.insert row = .error err) :
    err = if ∀ other ∈ table.rows, schema.key other ≠ schema.key row
      then .uniqueIndex else .primaryKey := by
  rw [insert] at hinsert
  split at hinsert
  · rename_i hkey
    rw [if_pos hkey]
    split at hinsert
    · cases hinsert
    · cases hinsert
      rfl
  · rename_i hkey
    rw [if_neg hkey]
    cases hinsert
    rfl

/-- A row that repeats neither its key nor its index entry is inserted. -/
theorem exists_insert_eq_ok {table : Table schema} (row : Row)
    (hkey : ∀ other ∈ table.rows, schema.key other ≠ schema.key row)
    (hindex : ∀ other ∈ table.rows, schema.Compatible other row) :
    ∃ table', table.insert row = .ok table' := by
  have hentry : ∀ other ∈ table.rows,
      schema.index other = none ∨ schema.index other ≠ schema.index row := hindex
  rw [insert, dif_pos hkey, dif_pos hentry]
  exact ⟨_, rfl⟩

theorem mem_insert {table table' : Table schema} {row other : Row}
    (hinsert : table.insert row = .ok table') :
    other ∈ table'.rows ↔ other ∈ table.rows ∨ other = row := by
  rw [(insert_eq_ok hinsert).1]
  simp

end Insert

end Table

end Conduit.Relational
