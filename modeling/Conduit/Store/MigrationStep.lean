import Conduit.Store.Migrate

/-!
# One step of a migration run

What a step of a run can do to the database, and what it keeps of the run's own account: at
each stage the run has applied a known part of its files.  The holder of the advisory lock
is the only run that commits, so what it read from `schema_migrations` together with what it
has applied itself stays the whole content of the table while it holds the lock.
-/

namespace Conduit.Migrate

open Paths Transition

/-! ## Where a run is in its list -/

/-- From the lock to the unlock. -/
def Stage.Holding : Stage → Prop
  | .createTable | .readApplied | .files .. | .begin .. | .apply .. | .record .. | .commit ..
  | .unlock .. => True
  | .acquire | .lock | .returned .. | .crashed => False

def Stage.Looping : Stage → Prop
  | .files .. | .begin .. | .apply .. | .record .. | .commit .. => True
  | .acquire | .lock | .createTable | .readApplied | .unlock .. | .returned .. | .crashed =>
      False

/-- Of the versions before the ones ahead, the run has applied those that were not. -/
def Run.Behind (run : Run) (mine ahead : List Bytes) : Prop :=
  run.applied ≠ none ∧
    ∃ done, run.versions = done ++ ahead ∧ mine = done.filter (!run.isApplied ·)

/-- A run that failed at a file has applied the ones before it, and the file itself only if
the commit was not acknowledged. -/
def Run.FailedWith (run : Run) (mine : List Bytes) : MigrateError → Prop
  | .migration _ version _ =>
      ∃ done rest, run.versions = done ++ version :: rest ∧
        (mine = done.filter (!run.isApplied ·) ∨
          mine = (done ++ [version]).filter (!run.isApplied ·))
  | _ => mine = []

/-- What a run with that number has done when it is at a stage. -/
def Run.At (run : Run) (index : ℕ) (mine : List Bytes) : Stage → Prop
  | .acquire | .lock | .createTable | .readApplied => mine = []
  | .files rest => run.Behind mine (rest.map base)
  | .begin version _ rest =>
      run.isApplied version = false ∧ run.Behind mine (version :: rest.map base)
  | .apply version _ rest =>
      run.tx = some ⟨[], []⟩ ∧
        run.isApplied version = false ∧ run.Behind mine (version :: rest.map base)
  | .record version rest =>
      (∃ sqlText, run.tx = some ⟨[⟨index, version, sqlText⟩], []⟩) ∧
        run.isApplied version = false ∧ run.Behind mine (version :: rest.map base)
  | .commit version rest =>
      (∃ sqlText, run.tx = some ⟨[⟨index, version, sqlText⟩], [version]⟩) ∧
        run.isApplied version = false ∧ run.Behind mine (version :: rest.map base)
  | .unlock (.ok ()) | .returned (.ok ()) => mine = run.pending
  | .unlock (.error error) | .returned (.error error) => run.FailedWith mine error
  | .crashed => mine <+: run.pending

section Position

variable {run : Run} {index : ℕ} {mine ahead : List Bytes} {version : Bytes}

theorem Run.Behind.isPrefix (hbehind : run.Behind mine ahead) : mine <+: run.pending := by
  obtain ⟨-, done, hversions, rfl⟩ := hbehind
  rw [Run.pending, hversions, List.filter_append]
  exact List.prefix_append _ _

theorem Run.FailedWith.isPrefix {error : MigrateError} (hfailed : run.FailedWith mine error) :
    mine <+: run.pending := by
  cases error with
  | migration action version cause =>
      obtain ⟨done, rest, hversions, hmine⟩ := hfailed
      rw [Run.pending, hversions]
      rcases hmine with rfl | rfl
      · rw [List.filter_append]
        exact List.prefix_append _ _
      · rw [List.append_cons done version rest, List.filter_append (done ++ [version])]
        exact List.prefix_append _ _
  | readDirectory | noFiles | acquire | takeLock | createTable | readApplied | scanApplied =>
      have hmine : mine = [] := hfailed
      rw [hmine]
      exact List.nil_prefix

theorem Run.At.isPrefix {stage : Stage} (hat : run.At index mine stage) :
    mine <+: run.pending := by
  cases stage with
  | acquire | lock | createTable | readApplied =>
      have hmine : mine = [] := hat
      rw [hmine]
      exact List.nil_prefix
  | files rest => exact Behind.isPrefix hat
  | begin => exact hat.2.isPrefix
  | apply => exact hat.2.2.isPrefix
  | record => exact hat.2.2.isPrefix
  | commit => exact hat.2.2.isPrefix
  | unlock result | returned result =>
      cases result with
      | ok =>
          have hmine : mine = run.pending := hat
          exact hmine ▸ List.prefix_refl mine
      | error error => exact FailedWith.isPrefix hat
  | crashed => exact hat

/-- The next version is skipped. -/
theorem Run.Behind.skip (hbehind : run.Behind mine (version :: ahead))
    (happlied : run.isApplied version = true) : run.Behind mine ahead := by
  obtain ⟨hread, done, hversions, hmine⟩ := hbehind
  refine ⟨hread, done ++ [version], ?_, ?_⟩
  · rw [hversions, List.append_cons]
  · simp [hmine, List.filter_append, happlied]

/-- The next version is applied. -/
theorem Run.Behind.apply (hbehind : run.Behind mine (version :: ahead))
    (happlied : run.isApplied version = false) :
    run.Behind (mine ++ [version]) ahead := by
  obtain ⟨hread, done, hversions, hmine⟩ := hbehind
  refine ⟨hread, done ++ [version], ?_, ?_⟩
  · rw [hversions, List.append_cons]
  · simp [hmine, List.filter_append, happlied]

theorem Run.Behind.failed (hbehind : run.Behind mine (version :: ahead)) (action : Action)
    (cause : Bytes) : run.FailedWith mine (.migration action version cause) := by
  obtain ⟨-, done, hversions, hmine⟩ := hbehind
  exact ⟨done, ahead, hversions, .inl hmine⟩

theorem Run.Behind.failed_apply (hbehind : run.Behind mine (version :: ahead))
    (happlied : run.isApplied version = false) (action : Action) (cause : Bytes) :
    run.FailedWith (mine ++ [version]) (.migration action version cause) := by
  obtain ⟨-, done, hversions, hmine⟩ := hbehind
  refine ⟨done, ahead, hversions, .inr ?_⟩
  simp [hmine, List.filter_append, happlied]

/-- A version ahead has not been applied by the run. -/
theorem Run.Behind.not_mem (hbehind : run.Behind mine (version :: ahead))
    (hsorted : run.versions.Pairwise Before) : version ∉ mine := by
  obtain ⟨-, done, hversions, rfl⟩ := hbehind
  intro hmem
  rw [hversions, List.pairwise_append] at hsorted
  have hbefore := hsorted.2.2 version (List.mem_filter.mp hmem).1 version List.mem_cons_self
  exact Before.irrefl version hbefore

end Position

/-! ## What a step does to the database -/

/-- Everything a step of the run with that number can do to the database. -/
inductive Database.Change (index : ℕ) (db : Database) : Database → Prop
  | nothing : Change index db db
  | lock (hfree : db.lock = none) : Change index db { db with lock := some index }
  | createTable : Change index db db.createTable
  | commit (version sqlText : Bytes) (hheld : db.lock = some index)
      (hfresh : version ∉ db.recorded) :
      Change index db (db.commit ⟨[⟨index, version, sqlText⟩], [version]⟩)
  | release : Change index db (db.release index)

/-- The versions in the table are those of the committed texts, each once. -/
structure Database.Exact (db : Database) : Prop where
  recorded : db.recorded = db.effects.map Effect.version
  nodup : db.recorded.Nodup

namespace Database

variable {db db' : Database} {index other : ℕ}

@[simp]
theorem recorded_release (db : Database) (index : ℕ) :
    (db.release index).recorded = db.recorded := by
  unfold release
  split <;> rfl

@[simp]
theorem effects_release (db : Database) (index : ℕ) :
    (db.release index).effects = db.effects := by
  unfold release
  split <;> rfl

@[simp]
theorem appliedBy_release (db : Database) (index other : ℕ) :
    (db.release index).appliedBy other = db.appliedBy other := by
  rw [appliedBy, effects_release, appliedBy]

theorem lock_release_ne (db : Database) (index : ℕ) : (db.release index).lock ≠ some index := by
  unfold release
  split
  · intro hlock
    cases hlock
  · assumption

theorem appliedBy_commit (db : Database) (index : ℕ) (version sqlText : Bytes) :
    (db.commit ⟨[⟨index, version, sqlText⟩], [version]⟩).appliedBy index =
      db.appliedBy index ++ [version] := by
  simp [appliedBy, commit, List.filter_append]

theorem recorded_commit (db : Database) (tx : Tx) :
    (db.commit tx).recorded = db.recorded ++ tx.versions := rfl

theorem Change.exact (hchange : Change index db db') (hexact : db.Exact) : db'.Exact := by
  cases hchange with
  | nothing | lock | createTable => exact ⟨hexact.recorded, hexact.nodup⟩
  | commit version sqlText _ hfresh =>
      constructor
      · show db.recorded ++ [version] =
          (db.effects ++ [Effect.mk index version sqlText]).map Effect.version
        rw [hexact.recorded, List.map_append, List.map_singleton]
      · rw [recorded_commit]
        exact hexact.nodup.append (List.nodup_singleton version) (by simpa using hfresh)
  | release => exact ⟨by simpa using hexact.recorded, by simpa using hexact.nodup⟩

theorem Change.appliedBy (hchange : Change index db db') (hother : other ≠ index) :
    db'.appliedBy other = db.appliedBy other := by
  cases hchange with
  | nothing | lock | createTable => rfl
  | commit => simp [Database.appliedBy, Database.commit, List.filter_append, hother.symm]
  | release => exact appliedBy_release db index other

theorem Change.recorded_subset (hchange : Change index db db') : db.recorded ⊆ db'.recorded := by
  cases hchange with
  | nothing | lock | createTable => exact List.Subset.refl _
  | commit => exact List.subset_append_left _ _
  | release => simp

/-- Only the holder of the lock changes what is recorded. -/
theorem Change.recorded_eq (hchange : Change index db db') (hlock : db.lock ≠ some index) :
    db'.recorded = db.recorded := by
  cases hchange with
  | nothing | lock | createTable => rfl
  | commit _ _ hheld => exact absurd hheld hlock
  | release => exact recorded_release db index

/-- Nobody takes the lock from another run or gives it to one. -/
theorem Change.lock_iff (hchange : Change index db db') (hother : other ≠ index) :
    db'.lock = some other ↔ db.lock = some other := by
  cases hchange with
  | nothing | createTable | commit => exact Iff.rfl
  | lock hfree => simp [hfree, hother.symm]
  | release =>
      unfold Database.release
      split
      · rename_i hheld
        simp [hheld, hother.symm]
      · exact Iff.rfl

theorem Change.effects_run (hchange : Change index db db') :
    ∀ effect ∈ db'.effects, effect ∈ db.effects ∨ effect.run = index := by
  intro effect heffect
  cases hchange with
  | nothing | lock | createTable => exact .inl heffect
  | commit version sqlText =>
      rcases List.mem_append.mp heffect with hold | hnew
      · exact .inl hold
      · right
        rw [List.mem_singleton.mp hnew]
  | release => exact .inl (by simpa using heffect)

end Database

/-! ## One step of a run -/

/-- A run that is consistent with the database. -/
structure Run.Ok (db : Database) (index : ℕ) (run : Run) : Prop where
  position : run.At index (db.appliedBy index) run.stage
  current : run.stage.Looping →
    ∀ version, version ∈ db.recorded ↔
      run.isApplied version = true ∨ version ∈ db.appliedBy index
  kept : ∀ version, run.isApplied version = true → version ∈ db.recorded
  holding : run.stage.Holding ↔ db.lock = some index
  unread : run.applied = none → db.appliedBy index = []
  sorted : run.versions.Pairwise Before

namespace Run.Ok

variable {db db' : Database} {index : ℕ} {run : Run}

/-- What is known of a run once its stage is. -/
theorem position_at (hok : run.Ok db index) {stage : Stage} (hstage : run.stage = stage) :
    run.At index (db.appliedBy index) stage := by
  rw [← hstage]
  exact hok.position

/-- A run goes on to another stage without touching the database. -/
theorem restage (hok : run.Ok db index) {before stage : Stage} (hstage : run.stage = before)
    {tx : Option Tx}
    (hposition : { run with tx := tx, stage := stage }.At index (db.appliedBy index) stage)
    (hlooping : stage.Looping → before.Looping) (hholding : stage.Holding ↔ before.Holding) :
    { run with tx := tx, stage := stage }.Ok db index where
  position := hposition
  current hloop := hok.current (hstage ▸ hlooping hloop)
  __ := hok
  holding := hholding.trans (hstage ▸ hok.holding)

/-- A run ends its session with the lock. -/
theorem released (hok : run.Ok db index) {tx : Option Tx} {stage : Stage}
    (hposition : { run with tx := tx, stage := stage }.At index (db.appliedBy index) stage)
    (hlooping : ¬stage.Looping) (hholding : ¬stage.Holding) :
    { run with tx := tx, stage := stage }.Ok (db.release index) index where
  position := by
    rw [Database.appliedBy_release]
    exact hposition
  current hloop := absurd hloop hlooping
  kept := by
    rw [Database.recorded_release]
    exact hok.kept
  holding := iff_of_false hholding (Database.lock_release_ne db index)
  unread := by
    rw [Database.appliedBy_release]
    exact hok.unread
  sorted := hok.sorted

/-- A run holds the lock throughout its loop. -/
theorem lock_eq (hok : run.Ok db index) (hholding : run.stage.Holding) :
    db.lock = some index :=
  hok.holding.mp hholding

/-- The version that a run is about to commit is not recorded. -/
theorem fresh (hok : run.Ok db index) (hlooping : run.stage.Looping) {version : Bytes}
    {ahead : List Bytes} (happlied : run.isApplied version = false)
    (hbehind : run.Behind (db.appliedBy index) (version :: ahead)) :
    version ∉ db.recorded := by
  rw [hok.current hlooping]
  rintro (happlied' | hmine)
  · rw [happlied] at happlied'
    cases happlied'
  · exact hbehind.not_mem hok.sorted hmine

/-- The commit of a run's transaction, whatever the run is told about it. -/
theorem committed (hok : run.Ok db index) {version sqlText : Bytes} {ahead : List Bytes}
    (hlooping : run.stage.Looping) (hlock : db.lock = some index)
    (hbehind : run.Behind (db.appliedBy index) (version :: ahead)) {stage : Stage}
    (hposition : { run with tx := none, stage := stage }.At index
      (db.appliedBy index ++ [version]) stage)
    (hholding : stage.Holding) :
    { run with tx := none, stage := stage }.Ok
      (db.commit ⟨[⟨index, version, sqlText⟩], [version]⟩) index where
  position := by
    rw [Database.appliedBy_commit]
    exact hposition
  current _ other := by
    rw [Database.recorded_commit, Database.appliedBy_commit, List.mem_append,
      List.mem_append, hok.current hlooping, or_assoc]
    exact Iff.rfl
  kept other happlied := List.mem_append_left _ (hok.kept other happlied)
  holding := iff_of_true hholding hlock
  unread hnone := absurd hnone hbehind.1
  sorted := hok.sorted

theorem lock (hok : run.Ok db index) (hstage : run.stage = .lock) :
    { run with stage := .createTable }.Ok { db with lock := some index } index where
  position := hok.position_at hstage
  current hloop := absurd hloop id
  __ := hok
  holding := iff_of_true trivial rfl

theorem createTable (hok : run.Ok db index) (hstage : run.stage = .createTable) :
    { run with stage := .readApplied }.Ok db.createTable index where
  position := hok.position_at hstage
  current hloop := absurd hloop id
  __ := hok
  holding := iff_of_true trivial (hok.lock_eq (by rw [hstage]; trivial))

theorem readApplied (hok : run.Ok db index) (hstage : run.stage = .readApplied) :
    { run with applied := some db.recorded, stage := .files run.files }.Ok db index := by
  have hmine : db.appliedBy index = [] := hok.position_at hstage
  have happlied (version : Bytes) :
      { run with applied := some db.recorded, stage := .files run.files }.isApplied version =
        true ↔ version ∈ db.recorded := List.contains_iff_mem
  constructor
  · exact ⟨Option.some_ne_none _, [], rfl, hmine⟩
  · intro _ version
    rw [happlied, hmine]
    simp
  · intro version
    exact (happlied version).mp
  · exact iff_of_true trivial (hok.lock_eq (by rw [hstage]; trivial))
  · intro hnone
    cases hnone
  · exact hok.sorted

/-- Both ways out of a commit: what is committed is the one file and its version. -/
theorem commit (hok : run.Ok db index) {version : Bytes} {rest : List Bytes}
    (hstage : run.stage = .commit version rest) :
    ∃ sqlText, run.tx = some ⟨[⟨index, version, sqlText⟩], [version]⟩ ∧
      Database.Change index db (db.commit ⟨[⟨index, version, sqlText⟩], [version]⟩) ∧
      ∀ stage : Stage, stage.Holding →
        { run with tx := none, stage := stage }.At index
          (db.appliedBy index ++ [version]) stage →
        { run with tx := none, stage := stage }.Ok
          (db.commit ⟨[⟨index, version, sqlText⟩], [version]⟩) index := by
  obtain ⟨⟨sqlText, htx⟩, happlied, hbehind⟩ := hok.position_at hstage
  have hlooping : run.stage.Looping := by
    rw [hstage]
    trivial
  have hlock := hok.lock_eq (by rw [hstage]; trivial)
  refine ⟨sqlText, htx, .commit version sqlText hlock (hok.fresh hlooping happlied hbehind), ?_⟩
  intro stage hholding hat
  exact hok.committed hlooping hlock hbehind hat hholding

theorem proceed (hok : run.Ok db index) :
    Database.Change index db (run.proceed db index).1 ∧
      (run.proceed db index).2.Ok (run.proceed db index).1 index := by
  unfold Run.proceed
  cases hstage : run.stage with
  | acquire =>
      have hposition := hok.position_at hstage
      exact ⟨.nothing, hok.restage hstage hposition id Iff.rfl⟩
  | lock =>
      by_cases hfree : db.lock = none
      · simp only [if_pos hfree]
        exact ⟨.lock hfree, hok.lock hstage⟩
      · simp only [if_neg hfree]
        exact ⟨.nothing, hok⟩
  | createTable => exact ⟨.createTable, hok.createTable hstage⟩
  | readApplied => exact ⟨.nothing, hok.readApplied hstage⟩
  | files rest =>
      have hposition := hok.position_at hstage
      cases rest with
      | nil =>
          obtain ⟨-, done, hversions, hmine⟩ := hposition
          refine ⟨.nothing, hok.restage hstage ?_ False.elim Iff.rfl⟩
          show db.appliedBy index = run.pending
          rw [hmine, Run.pending, hversions, List.map_nil, List.append_nil]
      | cons file rest =>
          by_cases happlied : run.isApplied (base file) = true
          · simp only [if_pos happlied]
            exact ⟨.nothing, hok.restage hstage (hposition.skip happlied) id Iff.rfl⟩
          · simp only [if_neg happlied]
            exact ⟨.nothing, hok⟩
  | begin version sqlText rest =>
      have hposition := hok.position_at hstage
      exact ⟨.nothing, hok.restage hstage ⟨rfl, hposition⟩ id Iff.rfl⟩
  | apply version sqlText rest =>
      have hposition := hok.position_at hstage
      obtain ⟨htx, hahead⟩ := hposition
      refine ⟨.nothing, hok.restage hstage ⟨⟨sqlText, ?_⟩, hahead⟩ id Iff.rfl⟩
      simp only [htx, Option.map_some, List.nil_append]
  | record version rest =>
      by_cases hrecorded : db.recorded.contains version = true
      · simp only [if_pos hrecorded]
        exact ⟨.nothing, hok⟩
      · have hposition := hok.position_at hstage
        obtain ⟨⟨sqlText, htx⟩, hahead⟩ := hposition
        simp only [if_neg hrecorded]
        refine ⟨.nothing, hok.restage hstage ⟨⟨sqlText, ?_⟩, hahead⟩ id Iff.rfl⟩
        simp only [htx, Option.map_some, List.nil_append]
  | commit version rest =>
      obtain ⟨sqlText, htx, hchange, hnext⟩ := hok.commit hstage
      have hposition := hok.position_at hstage
      simp only [htx]
      exact ⟨hchange, hnext (.files rest) trivial (hposition.2.2.apply hposition.2.1)⟩
  | unlock result =>
      have hposition := hok.position_at hstage
      refine ⟨.release, hok.released ?_ id id⟩
      cases result <;> exact hposition
  | returned result => exact ⟨.nothing, hok⟩
  | crashed => exact ⟨.nothing, hok⟩

theorem readText (hok : run.Ok db index) (sqlText : Bytes) :
    (run.readText sqlText).Ok db index := by
  unfold Run.readText
  split
  · rename_i file rest hstage
    have hposition := hok.position_at hstage
    by_cases happlied : run.isApplied (base file) = true
    · rw [if_pos happlied]
      exact hok
    · rw [if_neg happlied]
      have hposition' := And.intro (Bool.eq_false_of_not_eq_true happlied) hposition
      exact hok.restage hstage hposition' id Iff.rfl
  · exact hok

/-- A run gives up under the lock. -/
theorem stop (hok : run.Ok db index) {stage : Stage} (hstage : run.stage = stage)
    (hholding : stage.Holding) {error : MigrateError}
    (hfailed : run.FailedWith (db.appliedBy index) error) : (run.stop error).Ok db index :=
  hok.restage hstage hfailed False.elim (iff_of_true trivial hholding)

theorem fail (hok : run.Ok db index) (cause : Bytes) :
    Database.Change index db (run.fail db index cause).1 ∧
      (run.fail db index cause).2.Ok (run.fail db index cause).1 index := by
  unfold Run.fail
  cases hstage : run.stage with
  | acquire | lock =>
      have hposition := hok.position_at hstage
      exact ⟨.nothing, hok.restage hstage hposition False.elim Iff.rfl⟩
  | createTable | readApplied =>
      have hposition := hok.position_at hstage
      exact ⟨.nothing, hok.stop hstage trivial hposition⟩
  | files rest =>
      cases rest with
      | nil => exact ⟨.nothing, hok⟩
      | cons file rest =>
          have hposition := hok.position_at hstage
          by_cases happlied : run.isApplied (base file) = true
          · simp only [if_pos happlied]
            exact ⟨.nothing, hok⟩
          · simp only [if_neg happlied]
            exact ⟨.nothing,
              hok.stop hstage trivial (Behind.failed hposition .read cause)⟩
  | begin version sqlText rest =>
      have hposition := hok.position_at hstage
      exact ⟨.nothing, hok.stop hstage trivial (hposition.2.failed .begin cause)⟩
  | apply version sqlText rest =>
      have hposition := hok.position_at hstage
      exact ⟨.nothing, hok.stop hstage trivial (hposition.2.2.failed .apply cause)⟩
  | record version rest =>
      have hposition := hok.position_at hstage
      exact ⟨.nothing, hok.stop hstage trivial (hposition.2.2.failed .record cause)⟩
  | commit version rest =>
      have hposition := hok.position_at hstage
      exact ⟨.nothing, hok.stop hstage trivial (hposition.2.2.failed .commit cause)⟩
  | unlock result =>
      have hposition := hok.position_at hstage
      refine ⟨.release, hok.released ?_ id id⟩
      cases result <;> exact hposition
  | returned result => exact ⟨.nothing, hok⟩
  | crashed => exact ⟨.nothing, hok⟩

theorem failScan (hok : run.Ok db index) (cause : Bytes) :
    (run.failScan cause).Ok db index := by
  unfold Run.failScan
  split
  · rename_i hstage
    have hposition := hok.position_at hstage
    exact hok.stop hstage trivial hposition
  · exact hok

theorem loseReply (hok : run.Ok db index) (cause : Bytes) :
    Database.Change index db (run.loseReply db cause).1 ∧
      (run.loseReply db cause).2.Ok (run.loseReply db cause).1 index := by
  unfold Run.loseReply
  split
  · rename_i version rest tx hstage htx
    obtain ⟨sqlText, htx', hchange, hnext⟩ := hok.commit hstage
    have hposition := hok.position_at hstage
    rw [htx, Option.some.injEq] at htx'
    rw [htx']
    refine ⟨hchange, hnext (.unlock (.error _)) trivial ?_⟩
    exact hposition.2.2.failed_apply hposition.2.1 .commit cause
  · exact ⟨.nothing, hok⟩

theorem crash (hok : run.Ok db index) :
    Database.Change index db (run.crash db index).1 ∧
      (run.crash db index).2.Ok (run.crash db index).1 index := by
  unfold Run.crash
  split
  · exact ⟨.nothing, hok⟩
  · exact ⟨.release, hok.released hok.position.isPrefix id id⟩

theorem advance (hok : run.Ok db index) (event : Event) :
    Database.Change index db (run.advance db index event).1 ∧
      (run.advance db index event).2.Ok (run.advance db index event).1 index := by
  cases event with
  | proceeds => exact hok.proceed
  | text sqlText => exact ⟨.nothing, hok.readText sqlText⟩
  | fails cause => exact hok.fail cause
  | scanFails cause => exact ⟨.nothing, hok.failScan cause⟩
  | unacknowledged cause => exact hok.loseReply cause
  | crash => exact hok.crash

/-- A step of another run does not concern this one. -/
theorem frame {other : ℕ} (hok : run.Ok db index) (hchange : Database.Change other db db')
    (hother : index ≠ other) : run.Ok db' index where
  position := by
    rw [hchange.appliedBy hother]
    exact hok.position
  current hlooping := by
    -- A run in its loop has the lock, so the other one does not.
    have hheld : db.lock = some index := by
      apply hok.lock_eq
      cases hstage : run.stage <;> simp_all [Stage.Looping, Stage.Holding]
    have hlock : db.lock ≠ some other := by
      rw [hheld]
      intro hequal
      exact hother (Option.some.inj hequal)
    rw [hchange.recorded_eq hlock, hchange.appliedBy hother]
    exact hok.current hlooping
  kept version happlied := hchange.recorded_subset (hok.kept version happlied)
  holding := hok.holding.trans (hchange.lock_iff hother).symm
  unread := by
    rw [hchange.appliedBy hother]
    exact hok.unread
  sorted := hok.sorted

end Run.Ok

end Conduit.Migrate
