import Conduit.Store.MigrationStep

/-!
# Migrations apply once and in order

Any number of runs, each of which may stop at any call.  Every run stays consistent with the
database while the others go on, and from the moment a run has returned without an error
every later run on the same files finds all of them recorded.
-/

namespace Conduit.Migrate

open Paths Transition

/-! ## What a run was started on -/

/-- What a run was started on stays with it. -/
structure Run.Begun (run : Run) : Prop where
  files : run.files = (migrationFiles run.dir run.listing).toOption.getD []
  listed : ∀ entries, run.listing = .ok entries → Listed entries

theorem Run.advance_begun (run : Run) (db : Database) (index : ℕ) (event : Event) :
    (run.advance db index event).2.dir = run.dir ∧
      (run.advance db index event).2.listing = run.listing ∧
      (run.advance db index event).2.files = run.files ∧
      ((run.advance db index event).2.applied = run.applied ∨
        (run.advance db index event).2.applied = some db.recorded) := by
  cases event with
  | proceeds =>
      simp only [advance, proceed]
      split
      case h_4 => exact ⟨rfl, rfl, rfl, .inr rfl⟩
      all_goals
        first
          | exact ⟨rfl, rfl, rfl, .inl rfl⟩
          | (split <;> exact ⟨rfl, rfl, rfl, .inl rfl⟩)
  | text sqlText =>
      simp only [advance, readText]
      split
      · split <;> exact ⟨rfl, rfl, rfl, .inl rfl⟩
      · exact ⟨rfl, rfl, rfl, .inl rfl⟩
  | fails cause =>
      simp only [advance, fail]
      split
      all_goals
        first
          | exact ⟨rfl, rfl, rfl, .inl rfl⟩
          | (split <;> exact ⟨rfl, rfl, rfl, .inl rfl⟩)
  | scanFails cause =>
      simp only [advance, failScan]
      split <;> exact ⟨rfl, rfl, rfl, .inl rfl⟩
  | unacknowledged cause =>
      simp only [advance, loseReply]
      split <;> exact ⟨rfl, rfl, rfl, .inl rfl⟩
  | crash =>
      simp only [advance, crash]
      split <;> exact ⟨rfl, rfl, rfl, .inl rfl⟩

theorem migrationFiles_of_mem {dir : Bytes} {entries : List Entry} {entry : Entry}
    (hentry : entry ∈ entries) (hmigration : entry.isMigration = true) :
    migrationFiles dir (.ok entries) =
      .ok (sortStrings (((entries.filter Entry.isMigration).map Entry.name).map (join dir))) := by
  have hmem : entry ∈ entries.filter Entry.isMigration :=
    List.mem_filter.mpr ⟨hentry, hmigration⟩
  have hlength := List.length_pos_of_mem hmem
  simp only [migrationFiles, List.length_map, List.map_map]
  rw [if_neg (by omega)]
  rfl

theorem Listed.names {entries : List Entry} (hlisted : Listed entries) :
    (∀ name ∈ (entries.filter Entry.isMigration).map Entry.name, FileName name) ∧
      ((entries.filter Entry.isMigration).map Entry.name).Nodup := by
  constructor
  · intro name hname
    obtain ⟨entry, hentry, rfl⟩ := List.mem_map.mp hname
    exact hlisted.fileName entry (List.mem_filter.mp hentry).1
  · exact hlisted.nodup.sublist (List.filter_sublist.map Entry.name)

namespace Run.Begun

variable {run : Run}

theorem mem_versions (hbegun : run.Begun) {entries : List Entry}
    (hlisting : run.listing = .ok entries) {entry : Entry} (hentry : entry ∈ entries)
    (hmigration : entry.isMigration = true) : entry.name ∈ run.versions := by
  rw [Run.versions, hbegun.files, hlisting, migrationFiles_of_mem hentry hmigration]
  apply mem_base_sortStrings (hbegun.listed entries hlisting).names.1
  exact List.mem_map_of_mem (List.mem_filter.mpr ⟨hentry, hmigration⟩)

theorem sorted (hbegun : run.Begun) : run.versions.Pairwise Before := by
  rw [Run.versions, hbegun.files]
  cases hlisting : run.listing with
  | error cause => exact List.Pairwise.nil
  | ok entries =>
      rcases List.eq_nil_or_concat (entries.filter Entry.isMigration) with hnone | ⟨_, entry, hlast⟩
      · simp [migrationFiles, hnone, Except.toOption]
      · have hmem : entry ∈ entries.filter Entry.isMigration := by simp [hlast]
        obtain ⟨hentry, hmigration⟩ := List.mem_filter.mp hmem
        have hnames := (hbegun.listed entries hlisting).names
        rw [migrationFiles_of_mem hentry hmigration]
        exact pairwise_base_sortStrings hnames.1 hnames.2

theorem advance (hbegun : run.Begun) (db : Database) (index : ℕ) (event : Event) :
    (run.advance db index event).2.Begun := by
  obtain ⟨hdir, hlisting, hfiles, -⟩ := run.advance_begun db index event
  constructor
  · rw [hdir, hlisting, hfiles]
    exact hbegun.files
  · rw [hlisting]
    exact hbegun.listed

end Run.Begun

theorem Run.begun_start (dir : Bytes) {listing : Except Bytes (List Entry)}
    (hlisted : ∀ entries, listing = .ok entries → Listed entries) :
    (Run.start dir listing).Begun := by
  unfold Run.start
  split
  · rename_i error hfiles
    exact ⟨by simp [hfiles, Except.toOption], hlisted⟩
  · rename_i files hfiles
    exact ⟨by simp [hfiles, Except.toOption], hlisted⟩

/-! ## Any number of runs -/

structure Inv (system : System) : Prop where
  exact : system.db.Exact
  effects : ∀ effect ∈ system.db.effects, effect.run < system.runs.length
  lock : ∀ index, system.db.lock = some index → index < system.runs.length
  ok : ∀ (index : ℕ) (run : Run), system.runs[index]? = some run → run.Ok system.db index
  begun : ∀ run ∈ system.runs, run.Begun

theorem inv_init {system : System} (hinit : machine.Init system) : Inv system := by
  obtain ⟨hlock, hrecorded, heffects, hruns⟩ := hinit
  constructor
  · exact ⟨by rw [hrecorded, heffects]; rfl, by simp [hrecorded]⟩
  all_goals simp [hlock, heffects, hruns]

/-- A run that has not done anything. -/
theorem Run.Ok.of_unread {db : Database} {index : ℕ} {run : Run}
    (hmine : db.appliedBy index = []) (hlock : db.lock ≠ some index)
    (hposition : run.At index [] run.stage) (hlooping : ¬run.stage.Looping)
    (hholding : ¬run.stage.Holding) (happlied : run.applied = none)
    (hsorted : run.versions.Pairwise Before) : run.Ok db index where
  position := by
    rw [hmine]
    exact hposition
  current hloop := absurd hloop hlooping
  kept version hversion := by
    rw [Run.isApplied, happlied] at hversion
    cases hversion
  holding := iff_of_false hholding hlock
  unread _ := hmine
  sorted := hsorted

theorem Inv.ok_start {system : System} (hinv : Inv system) {dir : Bytes}
    {listing : Except Bytes (List Entry)} (hbegun : (Run.start dir listing).Begun) :
    (Run.start dir listing).Ok system.db system.runs.length := by
  have hmine : system.db.appliedBy system.runs.length = [] := by
    rw [Database.appliedBy, List.map_eq_nil_iff, List.filter_eq_nil_iff]
    intro effect heffect
    have hless := hinv.effects effect heffect
    simp only [decide_eq_true_eq]
    omega
  have hlock : system.db.lock ≠ some system.runs.length := by
    intro hheld
    exact Nat.lt_irrefl _ (hinv.lock _ hheld)
  have hsorted := hbegun.sorted
  unfold Run.start at hsorted ⊢
  split at hsorted
  · rename_i error hfiles
    refine .of_unread hmine hlock ?_ id id rfl hsorted
    -- Reading the directory has two errors of its own.
    cases hlisting : listing with
    | error cause =>
        rw [hlisting] at hfiles
        cases hfiles
        rfl
    | ok entries =>
        simp only [hlisting, migrationFiles] at hfiles
        split at hfiles
        · cases hfiles
          rfl
        · cases hfiles
  · exact .of_unread hmine hlock rfl id id rfl hsorted

/-- A run is an old one or the one that has just started. -/
theorem System.getElem?_start {system : System} {dir : Bytes}
    {listing : Except Bytes (List Entry)} {index : ℕ} {run : Run}
    (hrun : (system.step (.start dir listing)).runs[index]? = some run) :
    system.runs[index]? = some run ∨
      index = system.runs.length ∧ run = .start dir listing := by
  exact party_of_join hrun

theorem System.step_run {system : System} {index : ℕ} {run : Run}
    (hrun : system.runs[index]? = some run) (event : Event) :
    system.step (.run index event) =
      { db := (run.advance system.db index event).1
        runs := system.runs.set index (run.advance system.db index event).2 } := by
  simp only [step, hrun]

theorem System.step_run_none {system : System} {index : ℕ}
    (hrun : system.runs[index]? = none) (event : Event) :
    system.step (.run index event) = system := by
  simp only [step, hrun]

theorem Inv.start {system : System} (hinv : Inv system) (dir : Bytes)
    {listing : Except Bytes (List Entry)}
    (hlisted : ∀ entries, listing = .ok entries → Listed entries) :
    Inv (system.step (.start dir listing)) := by
  have hbegun := Run.begun_start dir hlisted
  have hlength : (system.runs ++ [Run.start dir listing]).length = system.runs.length + 1 := by
    rw [List.length_append, List.length_singleton]
  constructor
  · exact hinv.exact
  · intro effect heffect
    have hless := hinv.effects effect heffect
    show effect.run < (system.runs ++ [Run.start dir listing]).length
    omega
  · intro index hlock
    have hless := hinv.lock index hlock
    show index < (system.runs ++ [Run.start dir listing]).length
    omega
  · intro index run hrun
    rcases System.getElem?_start hrun with hold | ⟨rfl, rfl⟩
    · exact hinv.ok index run hold
    · exact hinv.ok_start hbegun
  · intro run hrun
    rcases List.mem_append.mp hrun with hold | hnew
    · exact hinv.begun run hold
    · rw [List.mem_singleton.mp hnew]
      exact hbegun

theorem Inv.run {system : System} (hinv : Inv system) (index : ℕ) (event : Event) :
    Inv (system.step (.run index event)) := by
  cases hrun : system.runs[index]? with
  | none =>
      rw [System.step_run_none hrun]
      exact hinv
  | some run =>
      rw [System.step_run hrun]
      obtain ⟨hchange, hok⟩ := (hinv.ok index run hrun).advance event
      have hbegun := (hinv.begun run (List.mem_of_getElem? hrun)).advance system.db index event
      have hindex : index < system.runs.length := (List.getElem?_eq_some_iff.mp hrun).1
      constructor
      · exact hchange.exact hinv.exact
      · intro effect heffect
        rw [List.length_set]
        rcases hchange.effects_run effect heffect with hold | hnew
        · exact hinv.effects effect hold
        · rw [hnew]
          exact hindex
      · intro other hlock
        rw [List.length_set]
        by_cases hother : other = index
        · rw [hother]
          exact hindex
        · exact hinv.lock other ((hchange.lock_iff hother).mp hlock)
      · intro other run' hrun'
        rcases party_of_set hrun' with ⟨rfl, rfl⟩ | ⟨hother, hold⟩
        · exact hok
        · exact (hinv.ok other run' hold).frame hchange hother
      · intro run' hrun'
        rcases List.mem_or_eq_of_mem_set hrun' with hold | rfl
        · exact hinv.begun run' hold
        · exact hbegun

theorem inv_of_reachable {system : System} (hreach : machine.Reachable system) :
    Inv system := by
  apply hreach.invariant Inv fun _ => inv_init
  intro before label _ hallowed hinv
  cases label with
  | start dir listing =>
      apply hinv.start dir
      rintro entries rfl
      exact hallowed
  | run index event => exact hinv.run index event

/-! ## A run after a complete one -/

/-- The versions are recorded, and every run from some number on that has read the table
has seen them there. -/
structure Settled (versions : List Bytes) (first : ℕ) (system : System) : Prop where
  recorded : versions ⊆ system.db.recorded
  seen : ∀ (index : ℕ) (run : Run), first ≤ index → system.runs[index]? = some run →
    run.applied ≠ none → ∀ version ∈ versions, run.isApplied version = true

theorem Settled.step {versions : List Bytes} {first : ℕ} {system : System}
    (hsettled : Settled versions first system) (hinv : Inv system) (label : Label) :
    Settled versions first (system.step label) := by
  cases label with
  | start dir listing =>
      refine ⟨hsettled.recorded, ?_⟩
      intro index run hfirst hrun hread
      rcases System.getElem?_start hrun with hold | ⟨-, rfl⟩
      · exact hsettled.seen index run hfirst hold hread
      · unfold Run.start at hread
        split at hread <;> exact absurd rfl hread
  | run index event =>
      cases hrun : system.runs[index]? with
      | none =>
          rw [System.step_run_none hrun]
          exact hsettled
      | some run =>
          rw [System.step_run hrun]
          obtain ⟨hchange, -⟩ := (hinv.ok index run hrun).advance event
          refine ⟨List.Subset.trans hsettled.recorded hchange.recorded_subset, ?_⟩
          intro other run' hfirst hrun' hread version hversion
          rcases party_of_set hrun' with ⟨rfl, rfl⟩ | ⟨-, hold⟩
          · obtain ⟨-, -, -, happlied⟩ := run.advance_begun system.db other event
            rcases happlied with hsame | hrecorded
            · rw [Run.isApplied, hsame]
              rw [hsame] at hread
              exact hsettled.seen other run hfirst hrun hread version hversion
            · rw [Run.isApplied, hrecorded]
              exact List.contains_iff_mem.mpr (hsettled.recorded hversion)
          · exact hsettled.seen other run' hfirst hold hread version hversion

/-- A run whose files are all settled when it starts applies nothing. -/
theorem Settled.appliedBy_eq_nil {versions : List Bytes} {first : ℕ} {system : System}
    (hsettled : Settled versions first system) (hinv : Inv system) {index : ℕ} {run : Run}
    (hfirst : first ≤ index) (hrun : system.runs[index]? = some run)
    (hversions : run.versions = versions) : system.db.appliedBy index = [] := by
  have hok := hinv.ok index run hrun
  by_cases hread : run.applied = none
  · exact hok.unread hread
  · have hpending : run.pending = [] := by
      rw [Run.pending, List.filter_eq_nil_iff, hversions]
      intro version hversion
      rw [hsettled.seen index run hfirst hrun hread version hversion]
      exact Bool.false_ne_true
    have hpart := hok.position.isPrefix
    rw [hpending] at hpart
    exact List.prefix_nil.mp hpart

theorem Database.Exact.mem_recorded {db : Database} (hexact : db.Exact) {index : ℕ}
    {version : Bytes} (hversion : version ∈ db.appliedBy index) : version ∈ db.recorded := by
  obtain ⟨effect, heffect, rfl⟩ := List.mem_map.mp hversion
  rw [hexact.recorded]
  exact List.mem_map_of_mem (List.mem_filter.mp heffect).1

/-- A run that returned without an error has left every one of its files recorded. -/
theorem Inv.recorded_of_returned {system : System} (hinv : Inv system) {index : ℕ} {run : Run}
    (hrun : system.runs[index]? = some run) (hstage : run.stage = .returned (.ok ())) :
    run.versions ⊆ system.db.recorded := by
  have hok := hinv.ok index run hrun
  have hmine : system.db.appliedBy index = run.pending := hok.position_at hstage
  intro version hversion
  by_cases happlied : run.isApplied version = true
  · exact hok.kept version happlied
  · have hmem : version ∈ system.db.appliedBy index := by
      rw [hmine]
      exact List.mem_filter.mpr ⟨hversion, by simp [happlied]⟩
    exact hinv.exact.mem_recorded hmem

/-- A run that failed at a file has applied nothing that comes after it. -/
theorem Run.FailedWith.not_before {run : Run} {mine : List Bytes} {action : Action}
    {version cause : Bytes}
    (hfailed : run.FailedWith mine (.migration action version cause))
    (hsorted : run.versions.Pairwise Before) : ∀ applied ∈ mine, ¬Before version applied := by
  obtain ⟨done, rest, hversions, hmine⟩ := hfailed
  rw [hversions, List.pairwise_append] at hsorted
  have hdone : ∀ applied ∈ done, ¬Before version applied := by
    intro applied happlied
    exact (hsorted.2.2 applied happlied version List.mem_cons_self).asymm
  intro applied happlied
  rcases hmine with rfl | rfl
  · exact hdone applied (List.mem_filter.mp happlied).1
  · rcases List.mem_append.mp (List.mem_filter.mp happlied).1 with hbefore | hself
    · exact hdone applied hbefore
    · rw [List.mem_singleton.mp hself]
      exact Before.irrefl version

/-- The result that a run is about to return or has returned. -/
def Stage.result : Stage → Option (Except MigrateError Unit)
  | .unlock result | .returned result => some result
  | _ => none

theorem Run.At.failed {run : Run} {index : ℕ} {mine : List Bytes} {stage : Stage}
    {error : MigrateError} (hat : run.At index mine stage)
    (hresult : stage.result = some (.error error)) : run.FailedWith mine error := by
  cases stage with
  | unlock result | returned result =>
      cases hresult
      exact hat
  | _ => cases hresult

/-- Whatever runs there are and wherever they stop: the versions recorded are those of the
committed texts, each committed once; a run applies a first part of what it has to apply,
in the order of the names, and nothing after a file it failed at; a run that returns without
an error has applied every file, and a later one on the same directory applies nothing. -/
theorem applied_once_in_order {system : System} (hreach : machine.Reachable system) :
    (system.db.recorded = system.db.effects.map Effect.version ∧
        system.db.recorded.Nodup) ∧
      (∀ (index : ℕ) (run : Run), system.runs[index]? = some run →
        system.db.appliedBy index <+: run.pending ∧
          (system.db.appliedBy index).Pairwise Before ∧
          ∀ action version cause,
            run.stage.result = some (.error (.migration action version cause)) →
              ∀ applied ∈ system.db.appliedBy index, ¬Before version applied) ∧
      ∀ (index : ℕ) (run : Run) (entries : List Entry), system.runs[index]? = some run →
        run.listing = .ok entries → run.stage = .returned (.ok ()) →
          (∀ entry ∈ entries, entry.isMigration = true →
            entry.name ∈ system.db.recorded) ∧
          ∀ (labels : List Label) (later : ℕ) (run' : Run),
            machine.AllowedRun system labels → system.runs.length ≤ later →
              (machine.run system labels).runs[later]? = some run' →
                run'.dir = run.dir → run'.listing = run.listing →
                  (machine.run system labels).db.appliedBy later = [] := by
  have hinv := inv_of_reachable hreach
  refine ⟨⟨hinv.exact.recorded, hinv.exact.nodup⟩, ?_, ?_⟩
  · intro index run hrun
    have hok := hinv.ok index run hrun
    have hpart := hok.position.isPrefix
    have hpending : run.pending.Pairwise Before := hok.sorted.sublist List.filter_sublist
    refine ⟨hpart, hpending.sublist hpart.sublist, ?_⟩
    intro action version cause hresult
    exact (hok.position.failed hresult).not_before hok.sorted
  · intro index run entries hrun hlisting hstage
    have hrecorded := hinv.recorded_of_returned hrun hstage
    have hbegun := hinv.begun run (List.mem_of_getElem? hrun)
    constructor
    · intro entry hentry hmigration
      exact hrecorded (hbegun.mem_versions hlisting hentry hmigration)
    · intro labels later run' hallowed hlater hrun' hdir hlisting'
      have hsettled : Settled run.versions system.runs.length (machine.run system labels) := by
        apply hallowed.invariant (Settled run.versions system.runs.length) _ hreach
        · refine ⟨hrecorded, ?_⟩
          intro other run hfirst hother
          have hless := (List.getElem?_eq_some_iff.mp hother).1
          omega
        · intro before label hbefore _ hsettled
          exact hsettled.step (inv_of_reachable hbefore) label
      have hinv' := inv_of_reachable (hreach.run hallowed)
      have hbegun' := hinv'.begun run' (List.mem_of_getElem? hrun')
      apply hsettled.appliedBy_eq_nil hinv' hlater hrun'
      rw [Run.versions, hbegun'.files, hdir, hlisting', ← hbegun.files, Run.versions]

/-- The first run fails at its second file, the next one goes on from there. -/
def secondRun : List Label :=
  let listing : Except Bytes (List Entry) := .ok [⟨bytes "2.sql", false⟩, ⟨bytes "1.sql", false⟩]
  let enter := List.replicate 4 Event.proceeds
  let apply := Event.text (bytes "SELECT 1") :: List.replicate 4 Event.proceeds
  let stop := [Event.text (bytes "SELECT"), .proceeds, .fails (bytes "syntax"), .proceeds]
  [.start (bytes "migrations") listing] ++ (enter ++ apply ++ stop).map (.run 0) ++
    [.start (bytes "migrations") listing] ++
      (enter ++ [Event.proceeds] ++ apply ++ List.replicate 2 Event.proceeds).map (.run 1)

def emptyDatabase : System := ⟨⟨none, none, []⟩, []⟩

theorem applied_once_in_order_secondRun :
    (machine.run emptyDatabase secondRun).db.appliedBy 0 = [bytes "1.sql"] ∧
      (machine.run emptyDatabase secondRun).db.appliedBy 1 = [bytes "2.sql"] ∧
      (machine.run emptyDatabase secondRun).db.recorded =
        (machine.run emptyDatabase secondRun).db.effects.map Effect.version := by
  have hlisted : Listed [⟨bytes "2.sql", false⟩, ⟨bytes "1.sql", false⟩] := by
    constructor
    · intro entry hentry
      constructor <;> revert entry <;> decide +kernel
    · decide +kernel
  have hallowed : machine.AllowedRun emptyDatabase secondRun := by
    simp [secondRun, Machine.AllowedRun, machine, List.replicate, hlisted]
  refine ⟨by decide +kernel, by decide +kernel, ?_⟩
  exact (applied_once_in_order (.run (.start ⟨rfl, rfl, rfl, rfl⟩) hallowed)).1.1

end Conduit.Migrate
