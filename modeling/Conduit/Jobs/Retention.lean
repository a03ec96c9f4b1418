import Conduit.Jobs.LeaseFencing
import Conduit.Jobs.StateChanges

/-!
# Retention

`DeleteFinished` is one statement with a subquery.  Under READ COMMITTED the subquery
reads a snapshot, and the `DELETE` then goes by the ids it found: a selected row that was
written in the meantime is deleted all the same, as its id has not changed.  A sweep here
is a `DeleteFinished` between the two, and everything else may run meanwhile.
-/

namespace Conduit.Retention

open Models Relational JobStore JobService JobCalls
open JobMachine (World Starts FreshToken step_cases eq_of_init
  forall_mem_calls_perform plainEnv plainJob fromCaller_plainJob emptyWorld
  freshToken_of_not_mints)
open LeaseFencing StateChanges Transition

/-! ## The system -/

/-- A `DeleteFinished` that has selected `ids` and is yet to delete them. -/
structure Sweep where
  state : JobState
  before : ℤ
  ids : List String

structure System where
  world : World
  sweeps : List Sweep

inductive Label
  /-- A step of any other operation. -/
  | job (label : JobMachine.Label)
  | select (state : JobState) (before limit : ℤ)
  | delete (env : Env) (index : ℕ)
  /-- The statement is cancelled. -/
  | abandon (index : ℕ)

/-- A row that is gone stays gone for a sweep that had selected it: a job created later
under the same id is not in its snapshot. -/
def Sweep.without (removed : List String) (sweep : Sweep) : Sweep :=
  { sweep with ids := sweep.ids.filter fun id => id ∉ removed }

def System.step (system : System) : Label → System
  | .job label => { system with world := system.world.step label }
  | .select state before limit =>
      match deleteFinishedSelect system.world.jobs state before limit with
      | .error _ => system
      | .ok ids => { system with sweeps := ⟨state, before, ids⟩ :: system.sweeps }
  | .delete env index =>
      match system.sweeps[index]? with
      | none => system
      | some sweep =>
          { world := system.world.perform env (.deleteExec sweep.ids)
            sweeps := (system.sweeps.eraseIdx index).map (Sweep.without sweep.ids) }
  | .abandon index => { system with sweeps := system.sweeps.eraseIdx index }

def machine : Machine System Label where
  Init system :=
    (JobMachine.machine AtRest LeaseCalls).Init system.world ∧ system.sweeps = []
  Allowed system
    | .job label => (JobMachine.machine AtRest LeaseCalls).Allowed system.world label
    | _ => True
  step := System.step

/-- Whichever sweep deletes now, the rows it removes are in the requested state and
finished before the cutoff, and none of them is live. -/
def DeletesOnlyFinished (system : System) : Prop :=
  ∀ env index sweep, system.sweeps[index]? = some sweep →
    ∀ row ∈ system.world.jobs.rows,
      row ∉ (system.step (.delete env index)).world.jobs.rows →
        FinishedBefore sweep.state sweep.before row ∧
          row.state ≠ .pending ∧ row.state ≠ .running

/-- No `RequeueDeadJob` takes effect on a job that a sweep has selected. -/
def Undisturbed (system : System) : Label → Prop
  | .job label => ∀ tenant id, runs system.world label = some (.requeueDeadJob tenant id) →
      ∀ row ∈ system.world.jobs.rows, row.id = id → row.state = .dead →
        InTenant tenant row → ∀ sweep ∈ system.sweeps, row.id ∉ sweep.ids
  | _ => True

/-! ## The invariant -/

structure SystemInv (system : System) : Prop where
  states : StateInv system.world
  calls : ∀ call ∈ system.world.calls, call.deletes = false
  terminal : ∀ sweep ∈ system.sweeps, sweep.state = .completed ∨ sweep.state = .dead
  present : ∀ sweep ∈ system.sweeps, ∀ id ∈ sweep.ids,
    ∃ row ∈ system.world.jobs.rows, row.id = id

section Job

variable {world : World} {label : JobMachine.Label}

variable (hallowed : (JobMachine.machine AtRest LeaseCalls).Allowed world label)
  (hcalls : ∀ call ∈ world.calls, call.deletes = false)

include hallowed hcalls

theorem deletes_of_runs {call : Call} (hruns : runs world label = some call) :
    call.deletes = false := by
  cases label with
  | issue env issued =>
      cases hruns
      exact deletes_of_starts hallowed.1 hallowed.2
  | resume env index => exact hcalls call (List.mem_of_getElem? hruns)
  | drop => cases hruns

theorem forall_deletes_step : ∀ call ∈ (world.step label).calls, call.deletes = false := by
  rcases step_cases hallowed with ⟨env, call, hstarts, hmay, hstep⟩ |
    ⟨env, call, calls, hperm, hmay, hstep⟩ | ⟨calls, hsublist, hstep⟩
  · rw [hstep]
    exact forall_mem_calls_perform
      (List.forall_mem_cons.2 ⟨deletes_of_starts hstarts hmay, hcalls⟩)
      fun next hleads => hleads.deletes
  · rw [hstep]
    exact forall_mem_calls_perform (fun other hother => hcalls other (hperm.subset hother))
      fun next hleads => hleads.deletes
  · rw [hstep]
    exact fun call hcall => hcalls call (hsublist.subset hcall)

/-- No row goes away. -/
theorem exists_row_step (hstates : StateInv world) {row : Row} (hrow : row ∈ world.jobs.rows) :
    ∃ later ∈ (world.step label).jobs.rows, later.id = row.id := by
  rcases hstates.runs_cases tokenCalls_of_leaseCalls hallowed with ⟨-, hjobs, -⟩ |
    ⟨env, call, rest, hruns, hjobs, -, -, -, hstep⟩
  · exact ⟨row, hjobs ▸ hrow, rfl⟩
  · have hkept : ∀ ids, call = .deleteExec ids → row.id ∉ ids := by
      rintro ids rfl
      cases deletes_of_runs hallowed hcalls hruns
    obtain ⟨later, hlater, hid, -⟩ :=
      (effect_does env rest.jobs call).persists (hjobs ▸ hrow) hkept
    rw [hstep]
    exact ⟨later, hlater, hid⟩

/-- A finished row changes only where it is requeued. -/
theorem finished_step (hstates : StateInv world) {row : Row} (hrow : row ∈ world.jobs.rows)
    (hfinished : row.state = .completed ∨ row.state = .dead)
    (hrequeue : row.state = .dead → ∀ tenant,
      runs world label = some (.requeueDeadJob tenant row.id) → ¬ InTenant tenant row) :
    row ∈ (world.step label).jobs.rows := by
  rcases hstates.runs_cases tokenCalls_of_leaseCalls hallowed with ⟨-, hjobs, -⟩ |
    ⟨env, call, rest, hruns, hjobs, -, -, hrest, hstep⟩
  · exact hjobs ▸ hrow
  · have hcall : row.state = .dead → ∀ tenant, call = .requeueDeadJob tenant row.id →
        ¬ InTenant tenant row := by
      rintro hdead tenant rfl
      exact hrequeue hdead tenant hruns
    rw [hstep]
    rcases hrest.kept_of_perform (hjobs ▸ hrow) hfinished hcall with hmem | ⟨ids, rfl, -⟩
    · exact hmem
    · cases deletes_of_runs hallowed hcalls hruns

end Job

/-- A requeue that takes effect leaves a pending row. -/
theorem pending_step {world : World} {label : JobMachine.Label} {tenant : String} {row : Row}
    (hruns : runs world label = some (.requeueDeadJob tenant row.id))
    (hrow : row ∈ world.jobs.rows) (hdead : row.state = .dead) (htenant : InTenant tenant row) :
    ∃ later ∈ (world.step label).jobs.rows, later.id = row.id ∧ later.state = .pending := by
  have hperform : ∀ (rest : World) (env : Env), rest.jobs = world.jobs →
      ∃ later ∈ (rest.perform env (.requeueDeadJob tenant row.id)).jobs.rows,
        later.id = row.id ∧ later.state = .pending := by
    intro rest env hjobs
    refine ⟨(Statement.requeueDeadJob tenant row.id env.dbNow).set row,
      Table.mem_exec.2 ⟨row, hjobs ▸ hrow, if_pos ⟨rfl, hdead, htenant⟩⟩, ?_, rfl⟩
    exact Statement.set_id _ row
  cases label with
  | issue env call =>
      cases hruns
      exact hperform world env rfl
  | resume env index =>
      have hcall : world.calls[index]? = some (.requeueDeadJob tenant row.id) := hruns
      rw [World.step, hcall]
      exact hperform _ env rfl
  | drop => cases hruns

/-! ## Steps of the system -/

section Step

variable {system : System}

/-- What a sweep would delete now is what it selected. -/
def SweptFinished (system : System) : Prop :=
  ∀ sweep ∈ system.sweeps, ∀ row ∈ system.world.jobs.rows, row.id ∈ sweep.ids →
    FinishedBefore sweep.state sweep.before row

theorem removed_iff {index : ℕ} {sweep : Sweep} (hsweep : system.sweeps[index]? = some sweep)
    (env : Env) {row : Row} (hrow : row ∈ system.world.jobs.rows) :
    row ∉ (system.step (.delete env index)).world.jobs.rows ↔ row.id ∈ sweep.ids := by
  rw [System.step, hsweep]
  change row ∉ (system.world.jobs.delete fun row => row.id ∈ sweep.ids).rows ↔ _
  rw [Table.mem_delete, not_and, not_not]
  exact ⟨fun hremoved => hremoved hrow, fun hmem _ => hmem⟩

theorem SystemInv.deletesOnlyFinished_iff (hinv : SystemInv system) :
    DeletesOnlyFinished system ↔ SweptFinished system := by
  constructor
  · intro hdeletes sweep hmem row hrow hid
    obtain ⟨index, hsweep⟩ := List.mem_iff_getElem?.1 hmem
    have env : Env := plainEnv 0 0 ""
    exact (hdeletes env index sweep hsweep row hrow ((removed_iff hsweep env hrow).2 hid)).1
  · intro hswept env index sweep hsweep row hrow hremoved
    have hmem := List.mem_of_getElem? hsweep
    have hfinished := hswept sweep hmem row hrow ((removed_iff hsweep env hrow).1 hremoved)
    refine ⟨hfinished, ?_⟩
    rw [hfinished.1]
    rcases hinv.terminal sweep hmem with hstate | hstate <;> simp [hstate]

/-- The ids a sweep selects are those of finished rows. -/
theorem deleteFinishedSelect_eq_ok {table : JobTable} {state : JobState} {before limit : ℤ}
    {ids : List String} (hselect : deleteFinishedSelect table state before limit = .ok ids) :
    (state = .completed ∨ state = .dead) ∧
      ∀ id ∈ ids, ∃ row ∈ table.rows, row.id = id ∧ FinishedBefore state before row := by
  rw [deleteFinishedSelect] at hselect
  split at hselect
  · cases hselect
  · rename_i hterminal
    refine ⟨by tauto, ?_⟩
    split at hselect
    · cases hselect
      simp
    · cases hselect
      intro id hid
      obtain ⟨row, hrow, rfl⟩ := List.mem_map.1 hid
      obtain ⟨hmem, hfinished⟩ := mem_selectOrdered hrow
      exact ⟨row, hmem, rfl, hfinished⟩

theorem Sweep.mem_ids_without {removed : List String} {sweep : Sweep} {id : String} :
    id ∈ (sweep.without removed).ids ↔ id ∈ sweep.ids ∧ id ∉ removed := by
  simp [Sweep.without]

theorem SystemInv.job (hinv : SystemInv system) {label : JobMachine.Label}
    (hallowed : (JobMachine.machine AtRest LeaseCalls).Allowed system.world label) :
    SystemInv (system.step (.job label)) where
  states := hinv.states.step tokenCalls_of_leaseCalls hallowed
  calls := forall_deletes_step hallowed hinv.calls
  terminal := hinv.terminal
  present sweep hsweep id hid := by
    obtain ⟨row, hrow, rfl⟩ := hinv.present sweep hsweep id hid
    exact exists_row_step hallowed hinv.calls hinv.states hrow

theorem SystemInv.select (hinv : SystemInv system) (state : JobState) (before limit : ℤ) :
    SystemInv (system.step (.select state before limit)) := by
  rw [System.step]
  split
  · exact hinv
  · rename_i ids hselect
    obtain ⟨hterminal, hrows⟩ := deleteFinishedSelect_eq_ok hselect
    refine ⟨hinv.states, hinv.calls, List.forall_mem_cons.2 ⟨hterminal, hinv.terminal⟩,
      List.forall_mem_cons.2 ⟨?_, hinv.present⟩⟩
    intro id hid
    obtain ⟨row, hrow, hrowID, -⟩ := hrows id hid
    exact ⟨row, hrow, hrowID⟩

theorem SystemInv.delete (hinv : SystemInv system) (env : Env) (index : ℕ) :
    SystemInv (system.step (.delete env index)) := by
  rw [System.step]
  split
  · exact hinv
  · rename_i sweep hsweep
    refine ⟨hinv.states.deleteExec env sweep.ids, hinv.calls, ?_, ?_⟩
    · intro other hother
      obtain ⟨kept, hkept, rfl⟩ := List.mem_map.1 hother
      exact hinv.terminal kept (List.mem_of_mem_eraseIdx hkept)
    · intro other hother id hid
      obtain ⟨kept, hkept, rfl⟩ := List.mem_map.1 hother
      obtain ⟨hselected, hleft⟩ := Sweep.mem_ids_without.1 hid
      obtain ⟨row, hrow, rfl⟩ :=
        hinv.present kept (List.mem_of_mem_eraseIdx hkept) id hselected
      exact ⟨row, Table.mem_delete.2 ⟨hrow, hleft⟩, rfl⟩

theorem SystemInv.step (hinv : SystemInv system) {label : Label}
    (hallowed : machine.Allowed system label) : SystemInv (system.step label) := by
  cases label with
  | job label => exact hinv.job hallowed
  | select state before limit => exact hinv.select state before limit
  | delete env index => exact hinv.delete env index
  | abandon index =>
      exact ⟨hinv.states, hinv.calls,
        fun sweep hsweep => hinv.terminal sweep (List.mem_of_mem_eraseIdx hsweep),
        fun sweep hsweep => hinv.present sweep (List.mem_of_mem_eraseIdx hsweep)⟩

/-- The rows under a sweep stay finished through a job step exactly when the step does not
requeue one of them. -/
theorem SystemInv.swept_job_iff (hinv : SystemInv system) {label : JobMachine.Label}
    (hallowed : (JobMachine.machine AtRest LeaseCalls).Allowed system.world label)
    (hswept : SweptFinished system) :
    SweptFinished (system.step (.job label)) ↔ Undisturbed system (.job label) := by
  constructor
  · intro hafter tenant id hruns row hrow hid hdead htenant sweep hsweep hmem
    subst hid
    obtain ⟨later, hlater, hlaterID, hpending⟩ := pending_step hruns hrow hdead htenant
    have hfinished := hafter sweep hsweep later hlater (hlaterID ▸ hmem)
    rw [FinishedBefore, hpending] at hfinished
    rcases hinv.terminal sweep hsweep with hstate | hstate <;>
      simp [hstate] at hfinished
  · intro hundisturbed sweep hsweep later hlater hmem
    obtain ⟨row, hrow, hid⟩ := hinv.present sweep hsweep later.id hmem
    have hfinished := hswept sweep hsweep row hrow (hid ▸ hmem)
    have hterminal : row.state = .completed ∨ row.state = .dead :=
      hfinished.1 ▸ hinv.terminal sweep hsweep
    have hkept : row ∈ (system.world.step label).jobs.rows := by
      apply finished_step hallowed hinv.calls hinv.states hrow hterminal
      intro hdead tenant hruns htenant
      exact hundisturbed tenant row.id hruns row hrow rfl hdead htenant sweep hsweep
        (hid ▸ hmem)
    rw [(system.world.step label).jobs.key_unique hlater hkept hid.symm]
    exact hfinished

theorem SweptFinished.select (hswept : SweptFinished system) (state : JobState)
    (before limit : ℤ) : SweptFinished (system.step (.select state before limit)) := by
  rw [System.step]
  split
  · exact hswept
  · rename_i ids hselect
    refine List.forall_mem_cons.2 ⟨?_, hswept⟩
    intro row hrow hid
    obtain ⟨selected, hmem, hselectedID, hfinished⟩ :=
      (deleteFinishedSelect_eq_ok hselect).2 row.id hid
    rw [system.world.jobs.key_unique hrow hmem hselectedID.symm]
    exact hfinished

theorem SweptFinished.delete (hswept : SweptFinished system) (env : Env) (index : ℕ) :
    SweptFinished (system.step (.delete env index)) := by
  rw [System.step]
  split
  · exact hswept
  · intro other hother row hrow hid
    obtain ⟨kept, hkept, rfl⟩ := List.mem_map.1 hother
    exact hswept kept (List.mem_of_mem_eraseIdx hkept) row (Table.mem_delete.1 hrow).1
      (Sweep.mem_ids_without.1 hid).1

theorem SystemInv.swept_step_iff (hinv : SystemInv system) {label : Label}
    (hallowed : machine.Allowed system label) (hswept : SweptFinished system) :
    SweptFinished (system.step label) ↔ Undisturbed system label := by
  cases label with
  | job label => exact hinv.swept_job_iff hallowed hswept
  | select state before limit => exact iff_of_true (hswept.select state before limit) trivial
  | delete env index => exact iff_of_true (hswept.delete env index) trivial
  | abandon index =>
      refine iff_of_true ?_ trivial
      exact fun sweep hsweep => hswept sweep (List.mem_of_mem_eraseIdx hsweep)

end Step

/-! ## Runs -/

theorem systemInv_init {system : System} (hinit : machine.Init system) : SystemInv system := by
  obtain ⟨world, sweeps⟩ := system
  obtain ⟨hworld, rfl⟩ := hinit
  have hempty : world = ⟨world.jobs, [], [], [], []⟩ := eq_of_init hworld
  rw [hempty]
  exact ⟨.init hworld.1, by simp, by simp, by simp⟩

theorem systemInv {system : System} (hreach : machine.Reachable system) : SystemInv system :=
  hreach.invariant SystemInv (fun _ => systemInv_init)
    fun _ _ _ hallowed hinv => hinv.step hallowed

/-- Retention deletes only finished jobs, throughout a run, exactly when no job is requeued
between its selection and its deletion. -/
theorem deletes_only_finished_iff {system : System} {labels : List Label}
    (hinit : machine.Init system) (hallowed : machine.AllowedRun system labels) :
    machine.Always DeletesOnlyFinished system labels ↔
      (machine.restrict Undisturbed).AllowedRun system labels := by
  refine Machine.always_iff_restrict DeletesOnlyFinished ?_ (.start hinit) ?_ hallowed
  · intro before label hreach hstep hdeletes
    have hinv := systemInv hreach
    have hswept := hinv.deletesOnlyFinished_iff.1 hdeletes
    exact (hinv.step hstep).deletesOnlyFinished_iff.trans (hinv.swept_step_iff hstep hswept)
  · intro env index sweep hsweep
    rw [hinit.2] at hsweep
    cases hsweep

/-! ## A requeue in between -/

def emptySystem : System := ⟨emptyWorld, []⟩

/-- A job is enqueued and cancelled, and a sweep selects it. -/
def selectedRun : List Label :=
  [.job (.issue (plainEnv 1 0 "job-1") (.enqueue plainJob)),
    .job (.issue (plainEnv 1 minute "") (.cancelJob "default" "job-1")),
    .select .dead (2 * minute) 10]

/-- Its owner requeues it before the sweep deletes it. -/
def requeuedRun : List Label :=
  selectedRun ++
    [.job (.issue (plainEnv 1 (2 * minute) "") (.requeueDeadJob "default" "job-1"))]

theorem init_emptySystem : machine.Init emptySystem :=
  ⟨⟨atRest_empty, rfl, rfl, rfl, rfl⟩, rfl⟩

theorem allowedRun_requeuedRun : machine.AllowedRun emptySystem requeuedRun :=
  ⟨⟨.of_not_mints rfl rfl, freshToken_of_not_mints rfl, fromCaller_plainJob⟩,
    ⟨.of_not_mints rfl rfl, freshToken_of_not_mints rfl, trivial⟩, trivial,
    ⟨.of_not_mints rfl rfl, freshToken_of_not_mints rfl, trivial⟩, trivial⟩

theorem deletes_only_finished_selectedRun :
    machine.Always DeletesOnlyFinished emptySystem selectedRun := by
  have hrequeued := allowedRun_requeuedRun
  have hallowed : machine.AllowedRun emptySystem selectedRun :=
    ⟨hrequeued.1, hrequeued.2.1, trivial, trivial⟩
  refine (deletes_only_finished_iff init_emptySystem hallowed).2
    ⟨⟨hallowed.1, ?_⟩, ⟨hallowed.2.1, ?_⟩, ⟨trivial, trivial⟩, trivial⟩
  · intro tenant id hruns
    cases hruns
  · intro tenant id hruns
    cases hruns

/-- The sweep deletes the pending job. -/
theorem not_forall_deletes_only_finished :
    ¬ ∀ system labels, machine.Init system → machine.AllowedRun system labels →
      machine.Always DeletesOnlyFinished system labels := by
  intro hall
  have hdeletes := (hall emptySystem requeuedRun init_emptySystem allowedRun_requeuedRun).last
  have hremoved : ∃ row ∈ (machine.run emptySystem requeuedRun).world.jobs.rows,
      row ∉ ((machine.run emptySystem requeuedRun).step
        (.delete (plainEnv 1 (2 * minute) "") 0)).world.jobs.rows ∧ row.state = .pending := by
    decide +kernel
  obtain ⟨row, hrow, hgone, hpending⟩ := hremoved
  rcases hsweep : (machine.run emptySystem requeuedRun).sweeps[0]? with _ | sweep
  · have hopen : (machine.run emptySystem requeuedRun).sweeps[0]?.isSome = true := by
      decide +kernel
    rw [hsweep] at hopen
    cases hopen
  · exact (hdeletes _ 0 sweep hsweep row hrow hgone).2.1 hpending

end Conduit.Retention
