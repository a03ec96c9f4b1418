import Conduit.Core.Base64
import Conduit.Scheduler.Cron
import Conduit.Store.Statements

/-!
# Listing jobs

`ListJobs` reads one page of jobs, newest first.  A page that is not the last one
goes with a cursor: the creation instant and the id of its last job, in base64.
The next page is what comes after that position in the order of the list.
-/

namespace Conduit.JobListing

open Models Relational JobStore

/-! ## Cursors -/

/-- What an `int64` keeps of a value. -/
def int64 (value : ℤ) : ℤ :=
  Int.bmod value (2 ^ 64)

/-- `UnixMicro()`: whole microseconds since 1970-01-01. -/
def unixMicro (instant : ℤ) : ℤ :=
  int64 (instant / 1000 - 62135596800000000)

/-- `time.UnixMicro`. -/
def ofUnixMicro (micros : ℤ) : ℤ :=
  (micros + 62135596800000000) * 1000

def utf8 (text : String) : List UInt8 :=
  text.toList.flatMap String.utf8EncodeChar

def encodeCursor (instant : ℤ) (id : String) : String :=
  String.ofList (Base64.encode (utf8 (toString (unixMicro instant) ++ "|" ++ id)))

inductive CursorError
  | corruptInput
  | malformed
  | notAnInteger
  deriving DecidableEq

/-- The code of `|`. -/
def separator : UInt8 := 124

/-- The id is what follows the first separator, which need not be valid text. -/
def decodeCursor (cursor : String) : Except CursorError (ℤ × List UInt8) :=
  match Base64.decode cursor.toList with
  | none => .error .corruptInput
  | some raw =>
      if separator ∈ raw then
        match Cron.atoi
            ((raw.takeWhile (· ≠ separator)).map fun byte => Char.ofNat byte.toNat) with
        | none => .error .notAnInteger
        | some micros => .ok (ofUnixMicro micros, (raw.dropWhile (· ≠ separator)).tail)
      else .error .malformed

/-- Microseconds from 1970-01-01 to 2000-01-01. -/
def y2k : ℤ := 946684800000000

/-- A `timestamptz` parameter: pgx sends it as microseconds since 2000-01-01, computed in
an `int64`. -/
def timestamptzParameter (instant : ℤ) : ℤ :=
  ofUnixMicro (y2k + int64 (unixMicro instant - y2k))

/-- A `text` parameter: Postgres takes UTF-8 without zero bytes. -/
def textParameter (bytes : List UInt8) : Option String :=
  (String.fromUTF8? ⟨bytes.toArray⟩).filter fun text => '\x00' ∉ text.toList

/-! ## ListJobs -/

/-- An unset state is any state, an empty cursor the first page. -/
structure ListFilter where
  tenant : String
  state : JobState
  limit : ℤ
  cursor : String

inductive ListError
  | invalidCursor (err : CursorError)
  | database
  deriving DecidableEq

/-- The limit, 50 unless given and at most 500. -/
def pageLimit (requested : ℤ) : ℕ :=
  let limit := if requested ≤ 0 then 50 else requested
  (if 500 < limit then 500 else limit).toNat

/-- The position a cursor stands for. -/
def position (cursor : String) : Except ListError (Option (ℤ × String)) :=
  if cursor = "" then .ok none
  else match decodeCursor cursor with
    | .error err => .error (.invalidCursor err)
    | .ok (instant, bytes) =>
        match textParameter bytes with
        | none => .error .database
        | some id => .ok (some (timestamptzParameter instant, id))

section Order

variable (collate : String → String → Bool)

/-- `(created_at, id) < ($n, $m)`; `collate` is the order of the database on text. -/
def Follows (instant : ℤ) (id : String) (row : Row) : Prop :=
  row.createdAt < instant ∨
    (row.createdAt = instant ∧ collate row.id id = true ∧ row.id ≠ id)

instance (instant : ℤ) (id : String) : DecidablePred (Follows collate instant id) :=
  fun _ => inferInstanceAs (Decidable (_ ∨ _))

/-- The `WHERE` clause. -/
def Listed (filter : ListFilter) (start : Option (ℤ × String)) (row : Row) : Prop :=
  InTenant filter.tenant row ∧
    (filter.state = .unset ∨ row.state = filter.state) ∧
    ∀ position ∈ start, Follows collate position.1 position.2 row

instance (filter : ListFilter) (start : Option (ℤ × String)) :
    DecidablePred (Listed collate filter start) := fun _ =>
  inferInstanceAs (Decidable (_ ∧ _ ∧ _))

/-- `ORDER BY created_at DESC, id DESC`. -/
def listBefore (left right : Row) : Prop :=
  right.createdAt < left.createdAt ∨
    (left.createdAt = right.createdAt ∧ collate right.id left.id = true)

instance : DecidableRel (listBefore collate) := fun _ _ =>
  inferInstanceAs (Decidable (_ ∨ _))

/-- Cut the extra row a query fetches to learn whether there is a next page. -/
def page (limit : ℕ) (jobs : List Job) : List Job × String :=
  if limit < jobs.length then
    (jobs.take limit,
      match jobs[limit - 1]? with
      | some last => encodeCursor last.createdAt last.id
      | none => "")
  else (jobs, "")

def listJobs (table : JobTable) (filter : ListFilter) :
    Except ListError (List Job × String) :=
  match position filter.cursor with
  | .error err => .error err
  | .ok start =>
      let limit := pageLimit filter.limit
      .ok (page limit ((selectOrdered (listBefore collate) (Listed collate filter start)
        (limit + 1) table.rows).map scanJob))

end Order

theorem pageLimit_pos (requested : ℤ) : 0 < pageLimit requested := by
  simp only [pageLimit]
  split <;> split <;> omega

/-- The jobs of a page, and the one its cursor names, are among those fetched. -/
theorem page_spec {limit : ℕ} (hlimit : 0 < limit) (jobs : List Job) :
    (page limit jobs).1 <+: jobs ∧
      ((page limit jobs).2 = "" ∨ ∃ last ∈ (page limit jobs).1,
        (page limit jobs).2 = encodeCursor last.createdAt last.id) := by
  rw [page]
  split
  · rename_i hlonger
    refine ⟨List.take_prefix .., .inr ?_⟩
    have hindex : limit - 1 < jobs.length := by omega
    rw [List.getElem?_eq_getElem hindex]
    refine ⟨jobs[limit - 1], ?_, rfl⟩
    rw [List.mem_take_iff_getElem]
    exact ⟨limit - 1, by omega, rfl⟩
  · exact ⟨List.prefix_refl jobs, .inl rfl⟩

/-- A page holds rows that match the filter. -/
theorem listJobs_eq_ok {collate : String → String → Bool} {table : JobTable}
    {filter : ListFilter} {jobs : List Job} {nextCursor : String}
    (hlist : listJobs collate table filter = .ok (jobs, nextCursor)) :
    ∃ rows : List Row, (∀ row ∈ rows, row ∈ table.rows ∧ InTenant filter.tenant row) ∧
      jobs = rows.map scanJob ∧
      (nextCursor = "" ∨ ∃ row ∈ rows, nextCursor = encodeCursor row.createdAt row.id) := by
  rw [listJobs] at hlist
  rcases hposition : position filter.cursor with err | start
  · rw [hposition] at hlist
    cases hlist
  · rw [hposition, Except.ok.injEq] at hlist
    have hspec := page_spec (pageLimit_pos filter.limit)
      ((selectOrdered (listBefore collate) (Listed collate filter start)
        (pageLimit filter.limit + 1) table.rows).map scanJob)
    rw [hlist] at hspec
    obtain ⟨hcut, hcursor⟩ := hspec
    rw [List.prefix_iff_eq_take, ← List.map_take] at hcut
    refine ⟨_, ?_, hcut, ?_⟩
    · intro row hrow
      obtain ⟨hmem, hlisted⟩ := mem_selectOrdered (List.mem_of_mem_take hrow)
      exact ⟨hmem, hlisted.1⟩
    · rcases hcursor with hlast | ⟨last, hlast, hnext⟩
      · exact .inl hlast
      · rw [hcut] at hlast
        obtain ⟨row, hrow, rfl⟩ := List.mem_map.1 hlast
        exact .inr ⟨row, hrow, hnext⟩

end Conduit.JobListing
