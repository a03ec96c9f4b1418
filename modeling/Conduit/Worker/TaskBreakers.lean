import Conduit.Breaker.History
import Conduit.Worker.Run
import Conduit.Jobs.Machine
import Mathlib.Logic.Function.Basic

/-!
# One circuit breaker per task

A `jobWorker` keeps a breaker for every task with a handler, and one for all the names
without.  Any number of runs go on at once, each reporting to the breaker of its own task.
Whether a job is let through depends on the runs of its own task alone, however the runs of
the others are interleaved with them.
-/

namespace Conduit.WorkerBreakers

open Transition
open CircuitBreaker (Breaker)
open BreakerHistory JobWorker Models JobStore
open JobMachine (plainEnv plainJob)

/-! ## The table of breakers -/

structure TaskBreakers where
  byTask : String → Option Breaker
  unknown : Breaker
  openTimeout : ℤ

def newTaskBreakers (cfg : CircuitBreaker.Config) (handlers : List String) : TaskBreakers where
  byTask name := if name ∈ handlers then some (CircuitBreaker.new cfg) else none
  unknown := CircuitBreaker.new cfg
  openTimeout := cfg.openTimeout

namespace TaskBreakers

def get (breakers : TaskBreakers) (taskName : String) : Breaker :=
  (breakers.byTask taskName).getD breakers.unknown

/-- The breaker `get` returns has changed. -/
def put (breakers : TaskBreakers) (taskName : String) (breaker : Breaker) : TaskBreakers :=
  match breakers.byTask taskName with
  | some _ => { breakers with
      byTask := Function.update breakers.byTask taskName (some breaker) }
  | none => { breakers with unknown := breaker }

end TaskBreakers

/-! ## Runs side by side -/

/-- The runs of a worker.  `calls` records the calls of its breakers, the newest first, with
the task whose run made each. -/
structure Workers where
  breakers : TaskBreakers
  runs : List Execution
  calls : List (String × CircuitBreaker.Label)

inductive Label
  | begin (execution : Execution)
  | run (index : ℕ) (label : JobWorker.Label)

/-- The call of the breaker that a step of a run makes. -/
def callOf (execution : Execution) : JobWorker.Label → Option CircuitBreaker.Label
  | .step turn =>
      match execution.stage with
      | .allow => some (.allow turn.env.now)
      | .record result =>
          match result.error? with
          | none => some (.recordSuccess turn.env.now)
          | some _ => some (.recordFailure turn.env.now)
      | _ => none
  | _ => none

namespace Workers

def step (workers : Workers) : Label → Workers
  | .begin execution => { workers with runs := workers.runs ++ [execution] }
  | .run index label =>
      match workers.runs[index]? with
      | none => workers
      | some execution =>
          let name := execution.job.task.name
          let left := { execution with breaker := workers.breakers.get name }.step label
          { breakers := workers.breakers.put name left.breaker
            runs := workers.runs.set index left
            calls := ((callOf execution label).map (name, ·)).toList ++ workers.calls }

end Workers

/-- The worker of a process with these handlers.  Runs change the breakers by their own
calls only. -/
def machine (cfg : CircuitBreaker.Config) (handlers : List String) : Machine Workers Label where
  Init workers := workers.breakers = newTaskBreakers cfg handlers ∧ workers.runs = [] ∧
    workers.calls = []
  Allowed workers
    | .begin execution => Begins execution ∧ execution.cfg.handlers = handlers ∧
        execution.cfg.openTimeout = cfg.openTimeout
    | .run index label => ∃ execution, workers.runs[index]? = some execution ∧
        execution.Allowed label ∧ ∀ breaker, label ≠ .reports breaker
  step := Workers.step

/-! ## A breaker after its own calls -/

def afterCall (breaker : Breaker) : CircuitBreaker.Label → Breaker
  | .allow now => (breaker.allow now).2
  | .recordSuccess _ => breaker.recordSuccess
  | .recordFailure now => breaker.recordFailure now

theorem breakerAfter_concat (cfg : CircuitBreaker.Config) (calls : List CircuitBreaker.Label)
    (call : CircuitBreaker.Label) :
    breakerAfter cfg (calls ++ [call]) = afterCall (breakerAfter cfg calls) call := by
  rw [breakerAfter, Machine.run, List.foldl_concat]
  cases call with
  | allow now | recordSuccess now | recordFailure now => rfl

/-- A step of a run changes the breaker by the call it makes, and not its configuration. -/
theorem step_breaker (execution : Execution) (label : JobWorker.Label)
    (hlabel : ∀ breaker, label ≠ .reports breaker) :
    (execution.step label).cfg = execution.cfg ∧ (execution.step label).breaker =
      match callOf execution label with
      | none => execution.breaker
      | some call => afterCall execution.breaker call := by
  cases label with
  | cancel | others table | renew env => exact ⟨rfl, rfl⟩
  | reports breaker => exact absurd rfl (hlabel breaker)
  | step turn =>
      rw [Execution.step, Execution.advance, callOf]
      cases hstage : execution.stage with
      | allow => exact ⟨rfl, rfl⟩
      | record result =>
          dsimp only [Execution.record]
          cases result.error? with
          | none => exact ⟨rfl, rfl⟩
          | some error => exact ⟨rfl, rfl⟩
      | claimWrite claimed =>
          dsimp only [Execution.claimWrite]
          split
          · exact ⟨rfl, rfl⟩
          · split <;> exact ⟨rfl, rfl⟩
      | complete =>
          dsimp only [Execution.complete]
          split <;> exact ⟨rfl, rfl⟩
      | failRead errMsg permanent =>
          dsimp only [Execution.failRead]
          split <;> exact ⟨rfl, rfl⟩
      | failWrite errMsg permanent job =>
          dsimp only [Execution.failWrite]
          split <;> exact ⟨rfl, rfl⟩
      | wait | sleep | lock | release reason retryAfter | claim | execute | returned =>
          exact ⟨rfl, rfl⟩

/-- Both names go to the same breaker. -/
def Shares (handlers : List String) (name other : String) : Prop :=
  name = other ∨ name ∉ handlers ∧ other ∉ handlers

instance (handlers : List String) (name other : String) :
    Decidable (Shares handlers name other) :=
  inferInstanceAs (Decidable (_ ∨ _))

/-- The calls the runs of a task have made, the newest first. -/
def Workers.callsFor (workers : Workers) (handlers : List String) (name : String) :
    List CircuitBreaker.Label :=
  (workers.calls.filter fun call => Shares handlers name call.1).map Prod.snd

structure Inv (cfg : CircuitBreaker.Config) (handlers : List String) (workers : Workers) :
    Prop where
  registered : ∀ name, (workers.breakers.byTask name).isSome = true ↔ name ∈ handlers
  breaker : ∀ name, workers.breakers.get name =
    breakerAfter cfg (workers.callsFor handlers name).reverse
  openTimeout : ∀ run ∈ workers.runs, run.cfg.openTimeout = cfg.openTimeout

section Invariant

variable {cfg : CircuitBreaker.Config} {handlers : List String} {workers : Workers}

theorem put_isSome (breakers : TaskBreakers) (name other : String) (breaker : Breaker) :
    ((breakers.put name breaker).byTask other).isSome = (breakers.byTask other).isSome := by
  rw [TaskBreakers.put]
  cases hfound : breakers.byTask name with
  | none => rfl
  | some found =>
      dsimp only
      by_cases hsame : other = name
      · rw [hsame, Function.update_self, hfound]
        rfl
      · rw [Function.update_of_ne hsame]

/-- Who shares the breaker sees the change, and nobody else. -/
theorem get_put {breakers : TaskBreakers}
    (hregistered : ∀ name, (breakers.byTask name).isSome = true ↔ name ∈ handlers)
    (name other : String) (breaker : Breaker) :
    (breakers.put name breaker).get other =
      if Shares handlers other name then breaker else breakers.get other := by
  have hname := hregistered name
  have hother := hregistered other
  rw [TaskBreakers.put]
  cases hfound : breakers.byTask name with
  | none =>
      rw [hfound] at hname
      have hunknown : name ∉ handlers := fun hmem => Bool.false_ne_true (hname.mpr hmem)
      dsimp only [TaskBreakers.get]
      cases hseen : breakers.byTask other with
      | none =>
          rw [hseen] at hother
          have hmissing : other ∉ handlers := fun hmem => Bool.false_ne_true (hother.mpr hmem)
          rw [if_pos (.inr ⟨hmissing, hunknown⟩)]
          rfl
      | some seen =>
          rw [hseen] at hother
          have hpresent : other ∈ handlers := hother.mp rfl
          rw [if_neg]
          · rfl
          · rintro (rfl | ⟨hmissing, -⟩)
            · exact hunknown hpresent
            · exact hmissing hpresent
  | some found =>
      rw [hfound] at hname
      have hknown : name ∈ handlers := hname.mp rfl
      dsimp only [TaskBreakers.get]
      by_cases hsame : other = name
      · rw [if_pos (.inl hsame), hsame, Function.update_self]
        rfl
      · rw [Function.update_of_ne hsame, if_neg]
        rintro (hequal | ⟨-, hunknown⟩)
        · exact hsame hequal
        · exact hunknown hknown

theorem get_eq_of_shares {breakers : TaskBreakers}
    (hregistered : ∀ name, (breakers.byTask name).isSome = true ↔ name ∈ handlers)
    {name other : String} (hshares : Shares handlers other name) :
    breakers.get name = breakers.get other := by
  have hnone {missing : String} (hmissing : missing ∉ handlers) :
      breakers.byTask missing = none := by
    rw [← Option.not_isSome_iff_eq_none, hregistered]
    exact hmissing
  rcases hshares with rfl | ⟨hother, hname⟩
  · rfl
  · rw [TaskBreakers.get, TaskBreakers.get, hnone hother, hnone hname]

theorem callsFor_run {call : Option CircuitBreaker.Label} {name : String} (other : String)
    {after : Workers} (hcalls : after.calls = (call.map (name, ·)).toList ++ workers.calls) :
    after.callsFor handlers other =
      if Shares handlers other name then call.toList ++ workers.callsFor handlers other
      else workers.callsFor handlers other := by
  rw [Workers.callsFor, hcalls, List.filter_append, List.map_append]
  cases call with
  | none => exact (ite_self _).symm
  | some call =>
      by_cases hshares : Shares handlers other name
      · rw [if_pos hshares]
        simp [Workers.callsFor, hshares]
      · rw [if_neg hshares]
        simp [Workers.callsFor, hshares]

theorem Inv.run (hinv : Inv cfg handlers workers) {index : ℕ} {execution : Execution}
    (hrun : workers.runs[index]? = some execution) {label : JobWorker.Label}
    (hlabel : ∀ breaker, label ≠ .reports breaker) :
    Inv cfg handlers (workers.step (.run index label)) := by
  let name := execution.job.task.name
  let entered : Execution := { execution with breaker := workers.breakers.get name }
  have hstep : workers.step (.run index label) =
      { breakers := workers.breakers.put name (entered.step label).breaker
        runs := workers.runs.set index (entered.step label)
        calls := ((callOf execution label).map (name, ·)).toList ++ workers.calls } := by
    rw [Workers.step, hrun]
  have hcall : callOf entered label = callOf execution label := rfl
  rw [hstep]
  refine ⟨fun other => ?_, fun other => ?_, fun run hmem => ?_⟩
  · rw [put_isSome, hinv.registered]
  · rw [get_put hinv.registered, callsFor_run other rfl]
    split
    · rename_i hshares
      -- the breaker is the one both names go to, after the call of this step
      have hsame : entered.breaker =
          breakerAfter cfg (workers.callsFor handlers other).reverse := by
        rw [← hinv.breaker other]
        exact get_eq_of_shares hinv.registered hshares
      rw [(step_breaker entered label hlabel).2, hcall]
      cases callOf execution label with
      | none => exact hsame
      | some call =>
          rw [Option.toList_some, List.singleton_append, List.reverse_cons,
            breakerAfter_concat, ← hsame]
    · exact hinv.breaker other
  · rcases List.mem_or_eq_of_mem_set hmem with hold | rfl
    · exact hinv.openTimeout run hold
    · rw [(step_breaker entered label hlabel).1]
      exact hinv.openTimeout execution (List.mem_of_getElem? hrun)

theorem Inv.step (hinv : Inv cfg handlers workers) {label : Label}
    (hallowed : (machine cfg handlers).Allowed workers label) :
    Inv cfg handlers (workers.step label) := by
  cases label with
  | begin execution =>
      refine ⟨hinv.registered, hinv.breaker, fun run hmem => ?_⟩
      rcases List.mem_append.mp hmem with hold | hnew
      · exact hinv.openTimeout run hold
      · rw [List.mem_singleton.mp hnew]
        exact hallowed.2.2
  | run index label =>
      obtain ⟨execution, hrun, -, hlabel⟩ := hallowed
      exact hinv.run hrun hlabel

theorem inv (hreach : (machine cfg handlers).Reachable workers) : Inv cfg handlers workers := by
  apply hreach.invariant
  · rintro ⟨breakers, runs, calls⟩ ⟨hbreakers, hruns, hcalls⟩
    obtain rfl : breakers = newTaskBreakers cfg handlers := hbreakers
    obtain rfl : runs = [] := hruns
    obtain rfl : calls = [] := hcalls
    refine ⟨fun name => ?_, fun name => ?_, fun run hmem => absurd hmem List.not_mem_nil⟩
    · dsimp only [newTaskBreakers]
      split
      · exact iff_of_true rfl ‹_›
      · exact iff_of_false Bool.false_ne_true ‹_›
    · dsimp only [newTaskBreakers, TaskBreakers.get]
      split <;> rfl
  · intro before label _ hallowed hbefore
    exact hbefore.step hallowed

/-- A job is let through or put back as the calls of the runs of its own task decide, those
of every name without a handler counting as one task. -/
theorem job_admitted_by_own_task (hreach : (machine cfg handlers).Reachable workers)
    {index : ℕ} {execution : Execution} (hrun : workers.runs[index]? = some execution)
    (hstage : execution.stage = .allow) (turn : Turn) :
    ∃ left, (workers.step (.run index (.step turn))).runs[index]? = some left ∧
      ((phase (CircuitBreaker.normalise cfg)
          (workers.callsFor handlers execution.job.task.name)).admits
          (CircuitBreaker.normalise cfg) turn.env.now →
        left.stage = .lock) ∧
      (¬ (phase (CircuitBreaker.normalise cfg)
          (workers.callsFor handlers execution.job.task.name)).admits
          (CircuitBreaker.normalise cfg) turn.env.now →
        left.stage = .release "circuit open" cfg.openTimeout) := by
  have hinv := inv hreach
  let name := execution.job.task.name
  let entered : Execution := { execution with breaker := workers.breakers.get name }
  have hleft : (workers.step (.run index (.step turn))).runs[index]? =
      some (entered.allow turn.env.now) := by
    rw [Workers.step, hrun]
    dsimp only
    rw [List.getElem?_set_self (List.getElem?_eq_some_iff.mp hrun).1, Execution.step,
      Execution.advance, hstage]
    rfl
  have hagrees : Agrees (CircuitBreaker.normalise cfg) (workers.breakers.get name)
      (phase (CircuitBreaker.normalise cfg) (workers.callsFor handlers name)) := by
    have hhistory := agrees_breakerAfter cfg (workers.callsFor handlers name).reverse
    rwa [List.reverse_reverse, ← hinv.breaker name] at hhistory
  refine ⟨_, hleft, fun hadmits => ?_, fun hadmits => ?_⟩
  · exact if_pos ((hagrees.allow_iff turn.env.now).mpr hadmits)
  · refine (if_neg (mt (hagrees.allow_iff turn.env.now).mp hadmits)).trans ?_
    change Stage.release "circuit open" execution.cfg.openTimeout = _
    rw [hinv.openTimeout execution (List.mem_of_getElem? hrun)]

end Invariant

/-- A claimed job of a task, about to be run. -/
def startedRun (taskName : String) : Execution where
  cfg := ⟨minute, second, ["webhook", "sql.etl"], id⟩
  table := .empty jobs
  breaker := CircuitBreaker.new ⟨1, 1, second, 1⟩
  cancelled := false
  job := { plainJob with state := .running, task := { plainJob.task with name := taskName } }
  stage := .wait
  handled := none
  missed := false

/-- The only webhook so far has failed, which opens the breaker of its task, and a pipeline
asks to be let through. -/
def webhookDown : Workers :=
  let failing : Label := .run 0 (.step ⟨plainEnv 0 0 "", true, true, .retryable "refused"⟩)
  (machine ⟨1, 1, second, 1⟩ ["webhook", "sql.etl"]).run
    ⟨newTaskBreakers ⟨1, 1, second, 1⟩ ["webhook", "sql.etl"], [], []⟩
    [.begin (startedRun "webhook"), failing, failing, failing, failing, failing, failing,
      .begin (startedRun "sql.etl"), .run 1 (.step ⟨plainEnv 0 0 "", true, true, .ok⟩)]

theorem allowed_turn {cfg : CircuitBreaker.Config} {handlers : List String} {workers : Workers}
    {index : ℕ} (hindex : index < workers.runs.length) (turn : Turn) :
    (machine cfg handlers).Allowed workers (.run index (.step turn)) :=
  ⟨_, List.getElem?_eq_getElem hindex, trivial, nofun⟩

theorem reachable_webhookDown :
    (machine ⟨1, 1, second, 1⟩ ["webhook", "sql.etl"]).Reachable webhookDown := by
  have hbegins (taskName : String) : Begins (startedRun taskName) := ⟨rfl, rfl, rfl⟩
  refine Machine.Reachable.run (.start ⟨rfl, rfl, rfl⟩) ⟨⟨hbegins _, rfl, rfl⟩,
    allowed_turn ?_ _, allowed_turn ?_ _, allowed_turn ?_ _, allowed_turn ?_ _,
    allowed_turn ?_ _, allowed_turn ?_ _, ⟨hbegins _, rfl, rfl⟩, allowed_turn ?_ _, trivial⟩
  all_goals decide +kernel

/-- The pipeline is let through although webhooks are not. -/
theorem job_admitted_by_own_task_webhookDown :
    (webhookDown.breakers.get "webhook").state = .opened ∧
      ∃ left, (webhookDown.step
        (.run 1 (.step ⟨plainEnv 0 0 "", true, true, .ok⟩))).runs[1]? = some left ∧
        left.stage = .lock := by
  refine ⟨by decide +kernel, ?_⟩
  obtain ⟨execution, hrun, hstage, hname⟩ : ∃ execution,
      webhookDown.runs[1]? = some execution ∧ execution.stage = .allow ∧
        execution.job.task.name = "sql.etl" := ⟨_, rfl, rfl, rfl⟩
  obtain ⟨left, hleft, hadmitted, -⟩ := job_admitted_by_own_task reachable_webhookDown hrun
    hstage ⟨plainEnv 0 0 "", true, true, .ok⟩
  refine ⟨left, hleft, hadmitted ?_⟩
  rw [hname]
  have hcalls : webhookDown.callsFor ["webhook", "sql.etl"] "sql.etl" = [] := by decide +kernel
  rw [hcalls]
  trivial

end Conduit.WorkerBreakers
