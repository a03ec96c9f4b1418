import Mathlib.Algebra.Order.Group.Multiset
import Mathlib.Tactic.Abel
import Conduit.Core.Transition

/-!
# The worker pool

`worker.Pool`: a buffered channel of jobs, one dispatcher that takes jobs off it,
and a goroutine for each job under way.  The dispatcher puts a token into a second
channel before it starts a goroutine, and the goroutine takes one out in a deferred
function, after another one has recovered a panic of the job.  The runtime decides
which goroutine moves next, and a `select` with several ready cases takes any of them;
both are choices of the environment here.
`accepted` and `finished` are records the program does not keep.
-/

namespace Conduit.WorkerPool

open Transition

variable {Job : Type*}

structure Config where
  concurrency : ℕ
  queueSize : ℕ

/-- Where the goroutine of `Start` is. -/
inductive Dispatcher (Job : Type*)
  | unstarted
  | selecting
  /-- It has a job in hand and waits for the semaphore. -/
  | holding (job : Job)
  | returned
  deriving DecidableEq

/-- Where `Stop` is. -/
inductive Stopping
  | uncalled
  | waiting
  | returnedNil
  | returnedError
  deriving DecidableEq

/-- The functions the goroutine of a job defers. -/
inductive Deferred
  | recover
  /-- `<-p.semaphore`. -/
  | freeSlot
  /-- `p.wg.Done()`. -/
  | done
  deriving DecidableEq

/-- The last one deferred runs first. -/
def jobDefers : List Deferred := [.recover, .freeSlot, .done]

/-- A goroutine that has left `Runner.Run`, with the deferred functions still to run. -/
structure Unwinding where
  panicking : Bool
  deferred : List Deferred
  deriving DecidableEq

structure Pool (Job : Type*) where
  cfg : Config
  queue : List Job
  closed : Bool
  dispatcher : Dispatcher Job
  /-- Goroutines that have not called `Runner.Run` yet. -/
  spawned : List Job
  /-- Goroutines inside `Runner.Run`. -/
  running : List Job
  unwinding : List Unwinding
  /-- The tokens in the channel. -/
  semaphore : ℕ
  /-- A panic has left a goroutine, which ends the process. -/
  crashed : Bool
  finished : List Job
  /-- The context of `Start` is cancelled. -/
  cancelled : Bool
  stop : Stopping
  accepted : List Job

def newPool (cfg : Config) : Pool Job where
  cfg := cfg
  queue := []
  closed := false
  dispatcher := .unstarted
  spawned := []
  running := []
  unwinding := []
  semaphore := 0
  crashed := false
  finished := []
  cancelled := false
  stop := .uncalled
  accepted := []

namespace Pool

/-- The jobs handed to `Runner.Run`. -/
def handed (pool : Pool Job) : List Job :=
  pool.running ++ pool.finished

def hand (pool : Pool Job) : List Job :=
  match pool.dispatcher with
  | .holding job => [job]
  | _ => []

def selecting (pool : Pool Job) : Bool :=
  match pool.dispatcher with
  | .selecting => true
  | _ => false

/-- No goroutine has its `wg.Done` before it. -/
def idle (pool : Pool Job) : Bool :=
  match pool.dispatcher with
  | .unstarted | .returned => pool.spawned.isEmpty ∧ pool.running.isEmpty ∧
      pool.unwinding.all fun goroutine => .done ∉ goroutine.deferred
  | _ => false

/-! ## Submissions -/

/-- A send on the channel would not block: there is room in the buffer, or the
dispatcher is there to receive. -/
def sendReady (pool : Pool Job) : Bool :=
  pool.queue.length < pool.cfg.queueSize ∨ (pool.queue.isEmpty ∧ pool.selecting)

def send (pool : Pool Job) (job : Job) : Pool Job :=
  if pool.queue.length < pool.cfg.queueSize then
    { pool with queue := pool.queue ++ [job], accepted := job :: pool.accepted }
  else { pool with dispatcher := .holding job, accepted := job :: pool.accepted }

/-- What a submission meets: its context is cancelled at the first check, or by
the time of the `select`, and the case the `select` prefers. -/
structure Submission where
  entryDone : Bool
  done : Bool
  prefersSend : Bool

/-- The `select` sends. -/
def sends (pool : Pool Job) (submission : Submission) : Bool :=
  pool.sendReady ∧ (submission.done = false ∨ submission.prefersSend)

def submit (pool : Pool Job) (submission : Submission) (job : Job) : Bool × Pool Job :=
  if submission.entryDone then (false, pool)
  else if pool.sends submission then (true, pool.send job)
  else (false, pool)

/-- `none` while the call blocks. -/
def submitBlocking (pool : Pool Job) (submission : Submission) (job : Job) :
    Option (Bool × Pool Job) :=
  if submission.entryDone then some (false, pool)
  else if pool.sends submission then some (true, pool.send job)
  else if submission.done then some (false, pool)
  else none

end Pool

/-! ## Steps -/

inductive Label (Job : Type*)
  | start
  | submit (submission : Pool.Submission) (job : Job)
  | submitBlocking (submission : Pool.Submission) (job : Job)
  /-- The dispatcher receives from the channel. -/
  | receive
  /-- The dispatcher takes the case of the cancelled context. -/
  | leave
  /-- The dispatcher gets its semaphore slot and starts a goroutine. -/
  | spawn
  /-- A goroutine calls `Runner.Run`. -/
  | run (index : ℕ)
  /-- `Runner.Run` returns or panics. -/
  | finish (index : ℕ) (panics : Bool)
  /-- A goroutine runs its next deferred function, or ends. -/
  | unwind (index : ℕ)
  | cancel
  | stop
  /-- `Stop` returns nil, or the error of its own context. -/
  | stopReturns (expired : Bool)

namespace Pool

def receive (pool : Pool Job) : Pool Job :=
  match pool.queue with
  | job :: queue => { pool with queue, dispatcher := .holding job }
  | [] => { pool with dispatcher := .returned }

def spawn (pool : Pool Job) : Pool Job :=
  match pool.dispatcher with
  | .holding job => { pool with
      dispatcher := .selecting
      spawned := pool.spawned ++ [job]
      semaphore := pool.semaphore + 1 }
  | _ => pool

def run (pool : Pool Job) (index : ℕ) : Pool Job :=
  match pool.spawned[index]? with
  | some job => { pool with
      spawned := pool.spawned.eraseIdx index, running := pool.running ++ [job] }
  | none => pool

/-- A panic runs the deferred functions as a return does. -/
def finish (pool : Pool Job) (index : ℕ) (panics : Bool) : Pool Job :=
  match pool.running[index]? with
  | some job => { pool with
      running := pool.running.eraseIdx index
      unwinding := pool.unwinding ++ [⟨panics, jobDefers⟩]
      finished := job :: pool.finished }
  | none => pool

/-- The deferred function a goroutine is at. -/
def nextDeferred (pool : Pool Job) (index : ℕ) : Option Deferred :=
  pool.unwinding[index]?.bind (·.deferred.head?)

def unwind (pool : Pool Job) (index : ℕ) : Pool Job :=
  match pool.unwinding[index]? with
  | none => pool
  | some ⟨panicking, []⟩ => { pool with
      unwinding := pool.unwinding.eraseIdx index
      crashed := pool.crashed || panicking }
  | some ⟨_, .recover :: rest⟩ =>
      { pool with unwinding := pool.unwinding.set index ⟨false, rest⟩ }
  | some ⟨panicking, .freeSlot :: rest⟩ => { pool with
      unwinding := pool.unwinding.set index ⟨panicking, rest⟩
      semaphore := pool.semaphore - 1 }
  | some ⟨panicking, .done :: rest⟩ =>
      { pool with unwinding := pool.unwinding.set index ⟨panicking, rest⟩ }

def step (pool : Pool Job) : Label Job → Pool Job
  | .start => { pool with dispatcher := .selecting }
  | .submit submission job => (pool.submit submission job).2
  | .submitBlocking submission job =>
      ((pool.submitBlocking submission job).map Prod.snd).getD pool
  | .receive => pool.receive
  | .leave => { pool with dispatcher := .returned }
  | .spawn => pool.spawn
  | .run index => pool.run index
  | .finish index panics => pool.finish index panics
  | .unwind index => pool.unwind index
  | .cancel => { pool with cancelled := true }
  | .stop => { pool with closed := true, stop := .waiting }
  | .stopReturns expired =>
      { pool with stop := if expired then .returnedError else .returnedNil }

/-- What the runtime may do next.  A send blocks on a full channel and a receive on an
empty one.  `Start` and `Stop` are called once at most, and neither `Start` nor a
submission comes after `Stop`. -/
def Allowed (pool : Pool Job) : Label Job → Prop
  | .start => pool.dispatcher = .unstarted ∧ pool.closed = false
  | .submit .. | .submitBlocking .. => pool.closed = false
  | .receive => pool.dispatcher = .selecting ∧ (pool.queue ≠ [] ∨ pool.closed = true)
  | .leave => pool.dispatcher = .selecting ∧ pool.cancelled = true
  | .spawn => pool.semaphore < pool.cfg.concurrency
  | .unwind index => pool.nextDeferred index = some .freeSlot → 0 < pool.semaphore
  | .run _ | .finish .. | .cancel => True
  | .stop => pool.stop = .uncalled
  | .stopReturns expired => pool.stop = .waiting ∧ (expired = true ∨ pool.idle = true)

end Pool

/-- A pool of at least one worker. -/
def machine (Job : Type*) : Machine (Pool Job) (Label Job) where
  Init pool := ∃ cfg : Config, 1 ≤ cfg.concurrency ∧ pool = newPool cfg
  Allowed := Pool.Allowed
  step := Pool.step

/-! ## Conservation -/

/-- Every job accepted is in one place. -/
def Conserved (pool : Pool Job) : Prop :=
  (pool.accepted : Multiset Job) =
    pool.queue + pool.hand + pool.spawned + pool.running + pool.finished

section Conserved

variable {pool : Pool Job}

theorem coe_append_singleton (jobs : List Job) (job : Job) :
    ((jobs ++ [job] : List Job) : Multiset Job) = jobs + {job} :=
  rfl

theorem coe_eraseIdx {jobs : List Job} {index : ℕ} {job : Job} (hget : jobs[index]? = some job) :
    (jobs : Multiset Job) = jobs.eraseIdx index + {job} := by
  obtain ⟨hindex, hget⟩ := List.getElem?_eq_some_iff.mp hget
  have hperm := List.getElem_cons_eraseIdx_perm hindex
  rw [hget] at hperm
  rw [← Multiset.coe_eq_coe.mpr hperm, ← Multiset.cons_coe, ← Multiset.singleton_add, add_comm]

theorem hand_eq_of_selecting (hselecting : pool.dispatcher = .selecting) : pool.hand = [] := by
  rw [Pool.hand, hselecting]

/-- Over a full buffer a send is taken by the dispatcher itself. -/
theorem selecting_of_sendReady (hready : pool.sendReady = true)
    (hfull : ¬ pool.queue.length < pool.cfg.queueSize) : pool.dispatcher = .selecting := by
  rw [Pool.sendReady, decide_eq_true_iff] at hready
  have hselecting := (hready.resolve_left hfull).2
  cases hdispatcher : pool.dispatcher <;> simp_all [Pool.selecting]

theorem conserved_send {job : Job} (hready : pool.sendReady) (hconserved : Conserved pool) :
    Conserved (pool.send job) := by
  rw [Conserved] at hconserved
  rw [Pool.send]
  split
  case isTrue =>
    change ((job :: pool.accepted : List Job) : Multiset Job) =
      ((pool.queue ++ [job] : List Job) : Multiset Job) + pool.hand + pool.spawned +
        pool.running + pool.finished
    rw [← Multiset.cons_coe, ← Multiset.singleton_add, hconserved, coe_append_singleton]
    abel
  case isFalse hfull =>
    have hhand : pool.hand = [] :=
      hand_eq_of_selecting (selecting_of_sendReady hready hfull)
    change ((job :: pool.accepted : List Job) : Multiset Job) =
      pool.queue + (([job] : List Job) : Multiset Job) + pool.spawned + pool.running +
        pool.finished
    rw [← Multiset.cons_coe, ← Multiset.singleton_add, hconserved, hhand, Multiset.coe_nil,
      Multiset.coe_singleton]
    abel

theorem conserved_submit {submission : Pool.Submission} {job : Job}
    (hconserved : Conserved pool) : Conserved (pool.submit submission job).2 := by
  rw [Pool.submit]
  split
  · exact hconserved
  · split
    case isTrue hsends =>
      rw [Pool.sends, decide_eq_true_iff] at hsends
      exact conserved_send hsends.1 hconserved
    case isFalse => exact hconserved

/-- The two submissions differ in when they return, not in what they do. -/
theorem step_submitBlocking (submission : Pool.Submission) (job : Job) :
    pool.step (.submitBlocking submission job) = pool.step (.submit submission job) := by
  change ((pool.submitBlocking submission job).map Prod.snd).getD pool =
    (pool.submit submission job).2
  rw [Pool.submitBlocking, Pool.submit]
  split
  · rfl
  · split
    · rfl
    · split <;> rfl

theorem conserved_receive (hselecting : pool.dispatcher = .selecting)
    (hconserved : Conserved pool) : Conserved pool.receive := by
  rw [Conserved, hand_eq_of_selecting hselecting] at hconserved
  rw [Pool.receive]
  split
  case h_1 job queue hqueue =>
    change (pool.accepted : Multiset Job) = queue + (([job] : List Job) : Multiset Job) +
      pool.spawned + pool.running + pool.finished
    rw [hconserved, hqueue, ← Multiset.cons_coe, ← Multiset.singleton_add, Multiset.coe_nil,
      Multiset.coe_singleton]
    abel
  case h_2 hqueue => exact hconserved

theorem conserved_spawn (hconserved : Conserved pool) : Conserved pool.spawn := by
  rw [Pool.spawn]
  split
  case h_1 job hholding =>
    have hhand : pool.hand = [job] := by rw [Pool.hand, hholding]
    rw [Conserved, hhand] at hconserved
    change (pool.accepted : Multiset Job) = pool.queue + (([] : List Job) : Multiset Job) +
      ((pool.spawned ++ [job] : List Job) : Multiset Job) + pool.running + pool.finished
    rw [hconserved, coe_append_singleton, Multiset.coe_nil, Multiset.coe_singleton]
    abel
  case h_2 => exact hconserved

theorem conserved_run {index : ℕ} (hconserved : Conserved pool) :
    Conserved (pool.run index) := by
  rw [Pool.run]
  split
  case h_1 job hget =>
    rw [Conserved, coe_eraseIdx hget] at hconserved
    change (pool.accepted : Multiset Job) = pool.queue + pool.hand +
      pool.spawned.eraseIdx index + ((pool.running ++ [job] : List Job) : Multiset Job) +
      pool.finished
    rw [hconserved, coe_append_singleton]
    abel
  case h_2 => exact hconserved

theorem conserved_finish (index : ℕ) (panics : Bool) (hconserved : Conserved pool) :
    Conserved (pool.finish index panics) := by
  rw [Pool.finish]
  split
  case h_1 job hget =>
    rw [Conserved, coe_eraseIdx hget] at hconserved
    change (pool.accepted : Multiset Job) = pool.queue + pool.hand + pool.spawned +
      pool.running.eraseIdx index + ((job :: pool.finished : List Job) : Multiset Job)
    rw [hconserved, ← Multiset.cons_coe, ← Multiset.singleton_add]
    abel
  case h_2 => exact hconserved

/-- Deferred functions move no job. -/
theorem conserved_unwind (index : ℕ) (hconserved : Conserved pool) :
    Conserved (pool.unwind index) := by
  rw [Pool.unwind]
  split <;> exact hconserved

theorem conserved_step {label : Label Job} (hallowed : pool.Allowed label)
    (hconserved : Conserved pool) : Conserved (pool.step label) := by
  cases label with
  | start =>
      rw [Conserved, Pool.hand, hallowed.1] at hconserved
      exact hconserved
  | submit submission job => exact conserved_submit hconserved
  | submitBlocking submission job =>
      rw [step_submitBlocking]
      exact conserved_submit hconserved
  | receive => exact conserved_receive hallowed.1 hconserved
  | leave =>
      rw [Conserved, hand_eq_of_selecting hallowed.1] at hconserved
      exact hconserved
  | spawn => exact conserved_spawn hconserved
  | run index => exact conserved_run hconserved
  | finish index panics => exact conserved_finish index panics hconserved
  | unwind index => exact conserved_unwind index hconserved
  | cancel | stop | stopReturns _ => exact hconserved

end Conserved

theorem conserved {pool : Pool Job} (hreach : (machine Job).Reachable pool) :
    Conserved pool := by
  apply hreach.invariant Conserved
  · rintro pool ⟨cfg, hconcurrency, rfl⟩
    rfl
  · intro pool label hreach hallowed hconserved
    exact conserved_step hallowed hconserved

end Conduit.WorkerPool
