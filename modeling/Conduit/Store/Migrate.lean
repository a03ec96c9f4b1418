import Conduit.Core.Paths
import Conduit.Core.Transition

/-!
# Applying the migrations

`Migrate` reads the directory, takes the advisory lock, reads which versions are recorded
and applies the other files one by one, each in a transaction that also records it.  A step
of a run is one call that can fail on its own.  A crash ends the session with the
database: the lock is released and an open transaction is rolled back.
-/

namespace Conduit.Migrate

open Paths Transition

/-! ## The directory -/

/-- What is done with one file. -/
inductive Action
  | read
  | begin
  | apply
  | record
  | commit
  deriving DecidableEq

def Action.verb : Action → String
  | .read => "read"
  | .begin => "begin"
  | .apply => "apply"
  | .record => "record"
  | .commit => "commit"

inductive MigrateError
  | readDirectory (dir cause : Bytes)
  | noFiles (dir : Bytes)
  | acquire (cause : Bytes)
  | takeLock (cause : Bytes)
  | createTable (cause : Bytes)
  | readApplied (cause : Bytes)
  | scanApplied (cause : Bytes)
  | migration (action : Action) (version cause : Bytes)
  deriving DecidableEq

def MigrateError.message : MigrateError → Bytes
  | .readDirectory dir cause =>
      bytes "store: read migrations directory " ++ dir ++ bytes ": " ++ cause
  | .noFiles dir => bytes "store: no .sql files in " ++ dir
  | .acquire cause => bytes "store: acquire connection for migrations: " ++ cause
  | .takeLock cause => bytes "store: take migration lock: " ++ cause
  | .createTable cause => bytes "store: create schema_migrations: " ++ cause
  | .readApplied cause => bytes "store: read schema_migrations: " ++ cause
  | .scanApplied cause => bytes "store: scan schema_migrations: " ++ cause
  | .migration action version cause =>
      bytes ("store: " ++ action.verb ++ " migration ") ++ version ++ bytes ": " ++ cause

structure Entry where
  name : Bytes
  isDir : Bool
  deriving DecidableEq

def sqlSuffix : Bytes := [46, 115, 113, 108]

/-- Neither a directory nor without the suffix. -/
def Entry.isMigration (entry : Entry) : Bool :=
  !(entry.isDir || !sqlSuffix.isSuffixOf entry.name)

/-- The paths of the directory's `.sql` files, given what `os.ReadDir` returns. -/
def migrationFiles (dir : Bytes) (listing : Except Bytes (List Entry)) :
    Except MigrateError (List Bytes) :=
  match listing with
  | .error cause => .error (.readDirectory dir cause)
  | .ok entries =>
      let files := (entries.filter Entry.isMigration).map fun entry => join dir entry.name
      if files.length = 0 then .error (.noFiles dir) else .ok (sortStrings files)

/-! ## The database -/

/-- The text of a file, executed by one of the runs. -/
structure Effect where
  run : ℕ
  version : Bytes
  sql : Bytes
  deriving DecidableEq

/-- What an open transaction has done. -/
structure Tx where
  effects : List Effect
  versions : List Bytes
  deriving DecidableEq

structure Database where
  /-- The run whose session has the advisory lock. -/
  lock : Option ℕ
  /-- The rows of `schema_migrations`, once the table exists. -/
  table : Option (List Bytes)
  /-- Every text that has been committed. -/
  effects : List Effect

namespace Database

def recorded (db : Database) : List Bytes :=
  db.table.getD []

def createTable (db : Database) : Database :=
  { db with table := some db.recorded }

/-- A transaction takes effect as a whole. -/
def commit (db : Database) (tx : Tx) : Database :=
  { db with
    table := some (db.recorded ++ tx.versions)
    effects := db.effects ++ tx.effects }

/-- The end of a session, or an unlock in it. -/
def release (db : Database) (index : ℕ) : Database :=
  if db.lock = some index then { db with lock := none } else db

/-- The versions whose text a run has committed, in that order. -/
def appliedBy (db : Database) (index : ℕ) : List Bytes :=
  (db.effects.filter (·.run = index)).map Effect.version

end Database

/-! ## A run -/

/-- The call that a run makes next. -/
inductive Stage
  | acquire
  | lock
  | createTable
  | readApplied
  /-- The top of the loop over the files. -/
  | files (rest : List Bytes)
  | begin (version sqlText : Bytes) (rest : List Bytes)
  | apply (version sqlText : Bytes) (rest : List Bytes)
  | record (version : Bytes) (rest : List Bytes)
  | commit (version : Bytes) (rest : List Bytes)
  /-- The deferred unlock. -/
  | unlock (result : Except MigrateError Unit)
  | returned (result : Except MigrateError Unit)
  | crashed
  deriving DecidableEq

structure Run where
  dir : Bytes
  listing : Except Bytes (List Entry)
  files : List Bytes
  /-- The versions read from the table, once they have been read. -/
  applied : Option (List Bytes)
  tx : Option Tx
  stage : Stage
  deriving DecidableEq

/-- How the next call of a run ends. -/
inductive Event
  | proceeds
  /-- `os.ReadFile` returns a text. -/
  | text (sqlText : Bytes)
  | fails (cause : Bytes)
  | scanFails (cause : Bytes)
  /-- A commit takes effect although it is reported as failed. -/
  | unacknowledged (cause : Bytes)
  | crash

namespace Run

def start (dir : Bytes) (listing : Except Bytes (List Entry)) : Run :=
  match migrationFiles dir listing with
  | .error error => ⟨dir, listing, [], none, none, .returned (.error error)⟩
  | .ok files => ⟨dir, listing, files, none, none, .acquire⟩

/-- The versions of the run's files, in the order of the loop. -/
def versions (run : Run) : List Bytes :=
  run.files.map base

def isApplied (run : Run) (version : Bytes) : Bool :=
  (run.applied.getD []).contains version

/-- The versions the run has to apply. -/
def pending (run : Run) : List Bytes :=
  run.versions.filter (!run.isApplied ·)

/-- An error under the lock; a transaction is rolled back. -/
def stop (run : Run) (error : MigrateError) : Run :=
  { run with tx := none, stage := .unlock (.error error) }

def proceed (run : Run) (db : Database) (index : ℕ) : Database × Run :=
  match run.stage with
  | .acquire => (db, { run with stage := .lock })
  | .lock =>
      if db.lock = none then
        ({ db with lock := some index }, { run with stage := .createTable })
      else (db, run)
  | .createTable => (db.createTable, { run with stage := .readApplied })
  | .readApplied =>
      (db, { run with applied := some db.recorded, stage := .files run.files })
  | .files [] => (db, { run with stage := .unlock (.ok ()) })
  | .files (file :: rest) =>
      if run.isApplied (base file) then (db, { run with stage := .files rest }) else (db, run)
  | .begin version sqlText rest =>
      (db, { run with tx := some ⟨[], []⟩, stage := .apply version sqlText rest })
  | .apply version sqlText rest =>
      (db,
        { run with
          tx := run.tx.map fun tx =>
            { tx with effects := tx.effects ++ [⟨index, version, sqlText⟩] }
          stage := .record version rest })
  | .record version rest =>
      -- The version is the primary key: for one that is there the statement only fails.
      if db.recorded.contains version then (db, run)
      else
        (db,
          { run with
            tx := run.tx.map fun tx => { tx with versions := tx.versions ++ [version] }
            stage := .commit version rest })
  | .commit _ rest =>
      match run.tx with
      | none => (db, run)
      | some tx => (db.commit tx, { run with tx := none, stage := .files rest })
  | .unlock result => (db.release index, { run with stage := .returned result })
  | .returned _ | .crashed => (db, run)

/-- The file is read. -/
def readText (run : Run) (sqlText : Bytes) : Run :=
  match run.stage with
  | .files (file :: rest) =>
      if run.isApplied (base file) then run
      else { run with stage := .begin (base file) sqlText rest }
  | _ => run

def fail (run : Run) (db : Database) (index : ℕ) (cause : Bytes) : Database × Run :=
  match run.stage with
  | .acquire => (db, { run with stage := .returned (.error (.acquire cause)) })
  | .lock => (db, { run with stage := .returned (.error (.takeLock cause)) })
  | .createTable => (db, run.stop (.createTable cause))
  | .readApplied => (db, run.stop (.readApplied cause))
  | .files [] => (db, run)
  | .files (file :: _) =>
      if run.isApplied (base file) then (db, run)
      else (db, run.stop (.migration .read (base file) cause))
  | .begin version _ _ => (db, run.stop (.migration .begin version cause))
  | .apply version _ _ => (db, run.stop (.migration .apply version cause))
  | .record version _ => (db, run.stop (.migration .record version cause))
  | .commit version _ => (db, run.stop (.migration .commit version cause))
  -- The error of the unlock is dropped; the lock is gone with the connection.
  | .unlock result => (db.release index, { run with stage := .returned result })
  | .returned _ | .crashed => (db, run)

def failScan (run : Run) (cause : Bytes) : Run :=
  match run.stage with
  | .readApplied => run.stop (.scanApplied cause)
  | _ => run

def loseReply (run : Run) (db : Database) (cause : Bytes) : Database × Run :=
  match run.stage, run.tx with
  | .commit version _, some tx =>
      (db.commit tx, run.stop (.migration .commit version cause))
  | _, _ => (db, run)

def crash (run : Run) (db : Database) (index : ℕ) : Database × Run :=
  match run.stage with
  | .returned _ => (db, run)
  | _ => (db.release index, { run with tx := none, stage := .crashed })

def advance (run : Run) (db : Database) (index : ℕ) : Event → Database × Run
  | .proceeds => run.proceed db index
  | .text sqlText => (db, run.readText sqlText)
  | .fails cause => run.fail db index cause
  | .scanFails cause => (db, run.failScan cause)
  | .unacknowledged cause => run.loseReply db cause
  | .crash => run.crash db index

end Run

/-! ## Any number of runs -/

structure System where
  db : Database
  runs : List Run

inductive Label
  | start (dir : Bytes) (listing : Except Bytes (List Entry))
  | run (index : ℕ) (event : Event)

def System.step (system : System) : Label → System
  | .start dir listing => { system with runs := system.runs ++ [.start dir listing] }
  | .run index event =>
      match system.runs[index]? with
      | none => system
      | some run =>
          let result := run.advance system.db index event
          { db := result.1, runs := system.runs.set index result.2 }

/-- The names in a directory are file names, and no two are equal. -/
structure Listed (entries : List Entry) : Prop where
  fileName : ∀ entry ∈ entries, FileName entry.name
  nodup : (entries.map Entry.name).Nodup

def machine : Machine System Label where
  Init system :=
    system.db.lock = none ∧ system.db.recorded = [] ∧ system.db.effects = [] ∧
      system.runs = []
  Allowed _ label :=
    match label with
    | .start _ (.ok entries) => Listed entries
    | _ => True
  step := System.step

end Conduit.Migrate
