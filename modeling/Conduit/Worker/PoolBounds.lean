import Conduit.Worker.Pool

/-!
# The pool until it is stopped

Submissions, the dispatcher, the semaphore and the goroutines of the jobs move in any order.
A job that was accepted is in exactly one place, and neither the channel nor the semaphore
holds more than it was made for.  The semaphore has a token for every goroutine from its
start until its deferred receive, which a panicking job gets to as well.  The capacities are
arbitrary: a channel without a buffer hands a job straight to the dispatcher, and behind a
semaphore without a slot the first job stays in the dispatcher's hand for ever.
-/

namespace Conduit.WorkerPool

open Transition

variable {Job : Type*} {pool : Pool Job}

/-- A pool of any capacities, until `Stop` is called. -/
def openMachine (Job : Type*) : Machine (Pool Job) (Label Job) where
  Init pool := ∃ cfg : Config, pool = newPool cfg
  Allowed pool label := pool.Allowed label ∧ label ≠ .stop
  step := Pool.step

/-! ## Acceptance -/

/-- The job that a step gets accepted: the submission answered true. -/
def Pool.accepts (pool : Pool Job) : Label Job → List Job
  | .submit submission job => if (pool.submit submission job).1 then [job] else []
  | .submitBlocking submission job =>
      match pool.submitBlocking submission job with
      | some (true, _) => [job]
      | _ => []
  | _ => []

/-- The jobs accepted in the course of a run, the last one first. -/
def acceptedIn (pool : Pool Job) : List (Label Job) → List Job
  | [] => []
  | label :: labels => acceptedIn (pool.step label) labels ++ pool.accepts label

theorem records_send (pool : Pool Job) (job : Job) :
    (pool.send job).cfg = pool.cfg ∧ (pool.send job).accepted = job :: pool.accepted := by
  rw [Pool.send]
  split <;> exact ⟨rfl, rfl⟩

theorem records_submit (pool : Pool Job) (submission : Pool.Submission) (job : Job) :
    (pool.submit submission job).2.cfg = pool.cfg ∧
      (pool.submit submission job).2.accepted =
        pool.accepts (.submit submission job) ++ pool.accepted := by
  rw [Pool.accepts, Pool.submit]
  split
  · exact ⟨rfl, rfl⟩
  · split
    · exact records_send pool job
    · exact ⟨rfl, rfl⟩

/-- The two submissions accept the same. -/
theorem accepts_submitBlocking (pool : Pool Job) (submission : Pool.Submission) (job : Job) :
    pool.accepts (.submitBlocking submission job) = pool.accepts (.submit submission job) := by
  rw [Pool.accepts, Pool.accepts, Pool.submitBlocking, Pool.submit]
  by_cases hentry : submission.entryDone = true
  · rw [if_pos hentry, if_pos hentry]
    rfl
  · rw [if_neg hentry, if_neg hentry]
    by_cases hsends : pool.sends submission = true
    · rw [if_pos hsends, if_pos hsends]
      rfl
    · rw [if_neg hsends, if_neg hsends]
      cases submission.done <;> rfl

theorem records_step (pool : Pool Job) (label : Label Job) :
    (pool.step label).cfg = pool.cfg ∧
      (pool.step label).accepted = pool.accepts label ++ pool.accepted := by
  cases label with
  | submit submission job => exact records_submit pool submission job
  | submitBlocking submission job =>
      rw [step_submitBlocking, accepts_submitBlocking]
      exact records_submit pool submission job
  | receive =>
      change pool.receive.cfg = pool.cfg ∧ pool.receive.accepted = pool.accepted
      rw [Pool.receive]
      split <;> exact ⟨rfl, rfl⟩
  | spawn =>
      change pool.spawn.cfg = pool.cfg ∧ pool.spawn.accepted = pool.accepted
      rw [Pool.spawn]
      split <;> exact ⟨rfl, rfl⟩
  | run index =>
      change (pool.run index).cfg = pool.cfg ∧ (pool.run index).accepted = pool.accepted
      rw [Pool.run]
      split <;> exact ⟨rfl, rfl⟩
  | finish index panics =>
      change (pool.finish index panics).cfg = pool.cfg ∧
        (pool.finish index panics).accepted = pool.accepted
      rw [Pool.finish]
      split <;> exact ⟨rfl, rfl⟩
  | unwind index =>
      change (pool.unwind index).cfg = pool.cfg ∧
        (pool.unwind index).accepted = pool.accepted
      rw [Pool.unwind]
      split <;> exact ⟨rfl, rfl⟩
  | start | leave | cancel | stop | stopReturns _ => exact ⟨rfl, rfl⟩

theorem records_run (pool : Pool Job) (labels : List (Label Job)) :
    ((openMachine Job).run pool labels).cfg = pool.cfg ∧
      ((openMachine Job).run pool labels).accepted =
        acceptedIn pool labels ++ pool.accepted := by
  induction labels generalizing pool with
  | nil => exact ⟨rfl, rfl⟩
  | cons label labels ih =>
      obtain ⟨hcfg, haccepted⟩ := ih (pool.step label)
      obtain ⟨hcfgStep, hacceptedStep⟩ := records_step pool label
      constructor
      · exact hcfg.trans hcfgStep
      · refine haccepted.trans ?_
        rw [hacceptedStep, acceptedIn, List.append_assoc]

/-! ## Goroutines that unwind -/

/-- The goroutine has its receive from the semaphore before it. -/
def Unwinding.holdsSlot (goroutine : Unwinding) : Bool :=
  .freeSlot ∈ goroutine.deferred

/-- Only the first deferred function meets a panic. -/
def Unwinding.Ok (goroutine : Unwinding) : Prop :=
  goroutine.deferred = jobDefers ∨
    goroutine.panicking = false ∧ goroutine.deferred ∈ jobDefers.tail.tails

section Unwinding

variable {goroutines : List Unwinding} {index : ℕ} {found : Unwinding}

theorem countP_eq_eraseIdx (hfound : goroutines[index]? = some found) :
    goroutines.countP Unwinding.holdsSlot =
      (goroutines.eraseIdx index).countP Unwinding.holdsSlot +
        if found.holdsSlot = true then 1 else 0 := by
  obtain ⟨hindex, hget⟩ := List.getElem?_eq_some_iff.mp hfound
  have hperm := List.getElem_cons_eraseIdx_perm hindex
  rw [hget] at hperm
  rw [← hperm.countP_eq, List.countP_cons]

theorem countP_set_eq_eraseIdx (hfound : goroutines[index]? = some found) (left : Unwinding) :
    (goroutines.set index left).countP Unwinding.holdsSlot =
      (goroutines.eraseIdx index).countP Unwinding.holdsSlot +
        if left.holdsSlot = true then 1 else 0 := by
  have hindex := (List.getElem?_eq_some_iff.mp hfound).1
  rw [(List.set_perm_cons_eraseIdx hindex left).countP_eq, List.countP_cons]

/-- The goroutines a step of one of them leaves. -/
theorem ok_of_mem_set (hok : ∀ goroutine ∈ goroutines, goroutine.Ok) {left : Unwinding}
    (hleft : left.Ok) : ∀ goroutine ∈ goroutines.set index left, goroutine.Ok := by
  intro goroutine hmem
  rcases List.mem_or_eq_of_mem_set hmem with hold | rfl
  · exact hok goroutine hold
  · exact hleft

end Unwinding

/-! ## Bounds -/

/-- The tokens that are out: for goroutines before, in and after `Runner.Run`. -/
def Pool.slots (pool : Pool Job) : ℕ :=
  pool.spawned.length + pool.running.length + pool.unwinding.countP Unwinding.holdsSlot

/-- The channels hold no more than they were made for, the semaphore a token for each slot
that is out, and no panic gets out of a goroutine. -/
structure Bounded (pool : Pool Job) : Prop where
  buffered : pool.queue.length ≤ pool.cfg.queueSize
  tokens : pool.semaphore = pool.slots
  working : pool.semaphore ≤ pool.cfg.concurrency
  unwinds : ∀ goroutine ∈ pool.unwinding, goroutine.Ok
  alive : pool.crashed = false

theorem bounded_newPool (cfg : Config) : Bounded (newPool cfg : Pool Job) where
  buffered := Nat.zero_le _
  tokens := rfl
  working := Nat.zero_le _
  unwinds := fun _ hmem => absurd hmem List.not_mem_nil
  alive := rfl

theorem Bounded.send (hbounded : Bounded pool) (job : Job) : Bounded (pool.send job) := by
  rw [Pool.send]
  split
  case isTrue hroom =>
    refine ⟨?_, hbounded.tokens, hbounded.working, hbounded.unwinds, hbounded.alive⟩
    change (pool.queue ++ [job]).length ≤ pool.cfg.queueSize
    rw [List.length_append]
    exact hroom
  case isFalse =>
    exact { hbounded with }

theorem Bounded.submit (hbounded : Bounded pool) (submission : Pool.Submission) (job : Job) :
    Bounded (pool.submit submission job).2 := by
  rw [Pool.submit]
  split
  · exact hbounded
  · split
    · exact hbounded.send job
    · exact hbounded

theorem Bounded.receive (hbounded : Bounded pool) : Bounded pool.receive := by
  rw [Pool.receive]
  split
  case h_1 job queue hqueue =>
    refine ⟨?_, hbounded.tokens, hbounded.working, hbounded.unwinds, hbounded.alive⟩
    have hbuffered := hbounded.buffered
    rw [hqueue, List.length_cons] at hbuffered
    exact Nat.le_of_succ_le hbuffered
  case h_2 =>
    exact { hbounded with }

/-- The channel takes the token of the new goroutine. -/
theorem Bounded.spawn (hbounded : Bounded pool)
    (hroom : pool.semaphore < pool.cfg.concurrency) : Bounded pool.spawn := by
  rw [Pool.spawn]
  split
  case h_1 job hholding =>
    refine ⟨hbounded.buffered, ?_, hroom, hbounded.unwinds, hbounded.alive⟩
    have htokens := hbounded.tokens
    rw [Pool.slots] at htokens ⊢
    dsimp only
    rw [List.length_append, List.length_singleton]
    omega
  case h_2 => exact hbounded

theorem Bounded.run (hbounded : Bounded pool) (index : ℕ) : Bounded (pool.run index) := by
  rw [Pool.run]
  split
  case h_1 job hget =>
    refine ⟨hbounded.buffered, ?_, hbounded.working, hbounded.unwinds, hbounded.alive⟩
    have hindex := (List.getElem?_eq_some_iff.mp hget).1
    have htokens := hbounded.tokens
    rw [Pool.slots] at htokens ⊢
    dsimp only
    rw [List.length_eraseIdx_of_lt hindex, List.length_append, List.length_singleton]
    omega
  case h_2 => exact hbounded

/-- A job that has left `Runner.Run`, by a panic too, has its slot until it unwinds. -/
theorem Bounded.finish (hbounded : Bounded pool) (index : ℕ) (panics : Bool) :
    Bounded (pool.finish index panics) := by
  rw [Pool.finish]
  split
  case h_1 job hget =>
    refine ⟨hbounded.buffered, ?_, hbounded.working, ?_, hbounded.alive⟩
    · have hindex := (List.getElem?_eq_some_iff.mp hget).1
      have hslot : [(⟨panics, jobDefers⟩ : Unwinding)].countP Unwinding.holdsSlot = 1 := rfl
      have htokens := hbounded.tokens
      rw [Pool.slots] at htokens ⊢
      dsimp only
      rw [List.length_eraseIdx_of_lt hindex, List.countP_append, hslot]
      omega
    · intro goroutine hmem
      rcases List.mem_append.mp hmem with hold | hnew
      · exact hbounded.unwinds goroutine hold
      · rw [List.mem_singleton.mp hnew]
        exact .inl rfl
  case h_2 => exact hbounded

/-- A deferred function other than the receive. -/
theorem Bounded.defer (hbounded : Bounded pool) {index : ℕ} {found left : Unwinding}
    (hfound : pool.unwinding[index]? = some found) (hslot : left.holdsSlot = found.holdsSlot)
    (hleft : left.Ok) : Bounded { pool with unwinding := pool.unwinding.set index left } := by
  refine ⟨hbounded.buffered, ?_, hbounded.working, ok_of_mem_set hbounded.unwinds hleft,
    hbounded.alive⟩
  have htokens := hbounded.tokens
  rw [Pool.slots, countP_eq_eraseIdx hfound] at htokens
  rw [Pool.slots, countP_set_eq_eraseIdx hfound, hslot]
  exact htokens

theorem Bounded.unwind (hbounded : Bounded pool) (index : ℕ) : Bounded (pool.unwind index) := by
  rw [Pool.unwind]
  split
  case h_1 => exact hbounded
  case h_2 panicking hfound =>
    have hok := hbounded.unwinds _ (List.mem_of_getElem? hfound)
    have hquiet : panicking = false := by simpa [Unwinding.Ok, jobDefers] using hok
    refine ⟨hbounded.buffered, ?_, hbounded.working, ?_, ?_⟩
    · have htokens := hbounded.tokens
      rw [Pool.slots, countP_eq_eraseIdx hfound] at htokens
      exact htokens
    · exact fun goroutine hmem => hbounded.unwinds goroutine (List.mem_of_mem_eraseIdx hmem)
    · change (pool.crashed || panicking) = false
      rw [hbounded.alive, hquiet]
      rfl
  case h_3 panicking rest hfound =>
    have hok := hbounded.unwinds _ (List.mem_of_getElem? hfound)
    have hrest : rest = [.freeSlot, .done] := by
      simpa [Unwinding.Ok, jobDefers] using hok
    exact hbounded.defer hfound (by simp [Unwinding.holdsSlot])
      (.inr ⟨rfl, by rw [hrest]; decide⟩)
  case h_4 panicking rest hfound =>
    have hok := hbounded.unwinds _ (List.mem_of_getElem? hfound)
    obtain ⟨hquiet, hrest⟩ : panicking = false ∧ rest = [.done] := by
      simpa [Unwinding.Ok, jobDefers] using hok
    refine ⟨hbounded.buffered, ?_, (Nat.sub_le ..).trans hbounded.working,
      ok_of_mem_set hbounded.unwinds (.inr ⟨hquiet, by simp [hrest, jobDefers]⟩), hbounded.alive⟩
    have htokens := hbounded.tokens
    rw [Pool.slots, countP_eq_eraseIdx hfound] at htokens
    rw [Pool.slots, countP_set_eq_eraseIdx hfound]
    change pool.semaphore - 1 = _
    simp only [Unwinding.holdsSlot, hrest] at htokens ⊢
    simp at htokens ⊢
    omega
  case h_5 panicking rest hfound =>
    have hok := hbounded.unwinds _ (List.mem_of_getElem? hfound)
    obtain ⟨hquiet, hrest⟩ : panicking = false ∧ rest = [] := by
      simpa [Unwinding.Ok, jobDefers] using hok
    exact hbounded.defer hfound (by simp [Unwinding.holdsSlot, hrest])
      (.inr ⟨hquiet, by simp [hrest, jobDefers]⟩)

theorem Bounded.step {label : Label Job} (hallowed : pool.Allowed label)
    (hbounded : Bounded pool) : Bounded (pool.step label) := by
  cases label with
  | submit submission job => exact hbounded.submit submission job
  | submitBlocking submission job =>
      rw [step_submitBlocking]
      exact hbounded.submit submission job
  | receive => exact hbounded.receive
  | spawn => exact hbounded.spawn hallowed
  | run index => exact hbounded.run index
  | finish index panics => exact hbounded.finish index panics
  | unwind index => exact hbounded.unwind index
  | start | leave | cancel | stop | stopReturns _ => exact { hbounded with }

/-- The receive from the semaphore never blocks. -/
theorem Bounded.allowed_unwind (hbounded : Bounded pool) (index : ℕ) :
    pool.Allowed (.unwind index) := by
  intro hnext
  rw [Pool.nextDeferred] at hnext
  obtain ⟨goroutine, hfound, hhead⟩ := Option.bind_eq_some_iff.mp hnext
  have hslot : goroutine.holdsSlot = true := by
    rw [Unwinding.holdsSlot, decide_eq_true_iff]
    exact List.mem_of_mem_head? hhead
  rw [hbounded.tokens, Pool.slots, countP_eq_eraseIdx hfound, if_pos hslot]
  omega

/-! ## The pool after a run -/

/-- The jobs in the buffer, in the dispatcher's hand, under way and done. -/
def Pool.places (pool : Pool Job) : List Job :=
  pool.queue ++ pool.hand ++ (pool.spawned ++ pool.running) ++ pool.finished

theorem conserved_iff_perm : Conserved pool ↔ pool.accepted.Perm pool.places := by
  rw [← Multiset.coe_eq_coe, Conserved, Pool.places]
  simp only [← Multiset.coe_add, add_assoc]

theorem conserved_bounded_of_reachable (hreach : (openMachine Job).Reachable pool) :
    Conserved pool ∧ Bounded pool := by
  apply hreach.invariant fun pool => Conserved pool ∧ Bounded pool
  · rintro initial ⟨cfg, rfl⟩
    exact ⟨rfl, bounded_newPool cfg⟩
  · intro before label _ hallowed hinv
    exact ⟨conserved_step hallowed.1 hinv.1, hinv.2.step hallowed.1⟩

theorem refused_submit {submission : Pool.Submission} {job : Job}
    (hrefused : (pool.submit submission job).1 = false) :
    (pool.submit submission job).2 = pool := by
  rw [Pool.submit] at hrefused ⊢
  split at hrefused
  case isTrue hentry => rw [if_pos hentry]
  case isFalse hentry =>
    rw [if_neg hentry]
    split at hrefused
    case isTrue => cases hrefused
    case isFalse hsends => rw [if_neg hsends]

theorem refused_submitBlocking {submission : Pool.Submission} {job : Job} {refused : Pool Job}
    (hrefused : pool.submitBlocking submission job = some (false, refused)) :
    refused = pool := by
  rw [Pool.submitBlocking] at hrefused
  split at hrefused
  · cases hrefused
    rfl
  · split at hrefused
    · cases hrefused
    · split at hrefused
      · cases hrefused
        rfl
      · cases hrefused

/-! ### A job that ends -/

/-- The steps of the goroutine of a job from the end of `Runner.Run` to its own. -/
def ending (pool : Pool Job) (index : ℕ) (panics : Bool) : List (Label Job) :=
  .finish index panics :: List.replicate 4 (.unwind pool.unwinding.length)

/-- A job that ends, by returning or by a panic, gives its slot back and its goroutine is
gone, without ending the process. -/
structure FreesSlot (pool : Pool Job) (index : ℕ) (panics : Bool) : Prop where
  allowed : (openMachine Job).AllowedRun pool (ending pool index panics)
  semaphore : ((openMachine Job).run pool (ending pool index panics)).semaphore + 1 =
    pool.semaphore
  running : ((openMachine Job).run pool (ending pool index panics)).running.length + 1 =
    pool.running.length
  unwinding : ((openMachine Job).run pool (ending pool index panics)).unwinding =
    pool.unwinding
  alive : ((openMachine Job).run pool (ending pool index panics)).crashed = false

theorem run_ending {index : ℕ} {job : Job} (hjob : pool.running[index]? = some job)
    (panics : Bool) :
    (openMachine Job).run pool (ending pool index panics) = { pool with
      running := pool.running.eraseIdx index
      semaphore := pool.semaphore - 1
      finished := job :: pool.finished } := by
  have hgone : (pool.unwinding ++ [(⟨false, []⟩ : Unwinding)]).eraseIdx pool.unwinding.length =
      pool.unwinding := by
    rw [List.eraseIdx_append_of_length_le (le_refl _), Nat.sub_self]
    exact List.append_nil _
  simp [Machine.run, ending, openMachine, Pool.step, Pool.finish, hjob, Pool.unwind, jobDefers,
    List.replicate, hgone]

theorem Bounded.freesSlot (hbounded : Bounded pool) {index : ℕ}
    (hindex : index < pool.running.length) (panics : Bool) : FreesSlot pool index panics := by
  have hafter := run_ending (List.getElem?_eq_getElem hindex) panics
  have hunwinds : ∀ (count : ℕ) (before : Pool Job), Bounded before →
      (openMachine Job).AllowedRun before
        (List.replicate count (.unwind pool.unwinding.length)) := by
    intro count
    induction count with
    | zero => exact fun _ _ => trivial
    | succ count ih =>
        intro before hbefore
        exact ⟨⟨hbefore.allowed_unwind _, nofun⟩, ih _ (hbefore.unwind _)⟩
  refine ⟨⟨⟨trivial, nofun⟩, hunwinds 4 _ (hbounded.finish index panics)⟩, ?_, ?_, ?_, ?_⟩
  · rw [hafter]
    have htokens := hbounded.tokens
    rw [Pool.slots] at htokens
    change pool.semaphore - 1 + 1 = pool.semaphore
    omega
  · rw [hafter]
    change (pool.running.eraseIdx index).length + 1 = pool.running.length
    rw [List.length_eraseIdx_of_lt hindex]
    omega
  · rw [hafter]
  · rw [hafter]
    exact hbounded.alive

/-- A pool that was made with a configuration, after a run. -/
def poolAfter (cfg : Config) (labels : List (Label Job)) : Pool Job :=
  (openMachine Job).run (newPool cfg) labels

/-- After any run without `Stop`, the accepted jobs are the buffered ones, the one in hand,
those under way and those that have ended, each as often as it was accepted.  The semaphore
has a token for every goroutine between its start and its deferred receive, which never
blocks, and at most `Concurrency` of them; the buffer is not exceeded; a job that returns or
panics gives its slot back, and no panic ends the process; and a submission that answers
false has no effect. -/
theorem accepted_perm_places {cfg : Config} {labels : List (Label Job)}
    (hallowed : (openMachine Job).AllowedRun (newPool cfg) labels) :
    (acceptedIn (newPool cfg) labels).Perm (poolAfter cfg labels).places ∧
      (poolAfter cfg labels).semaphore = (poolAfter cfg labels).slots ∧
      (poolAfter cfg labels).semaphore ≤ cfg.concurrency ∧
      ((poolAfter cfg labels).spawned ++ (poolAfter cfg labels).running).length ≤
        cfg.concurrency ∧
      (poolAfter cfg labels).queue.length ≤ cfg.queueSize ∧
      (∀ index panics, index < (poolAfter cfg labels).running.length →
        FreesSlot (poolAfter cfg labels) index panics) ∧
      (∀ index, (poolAfter cfg labels).Allowed (.unwind index)) ∧
      (poolAfter cfg labels).crashed = false ∧
      ∀ submission job,
        (((poolAfter cfg labels).submit submission job).1 = false →
          ((poolAfter cfg labels).submit submission job).2 = poolAfter cfg labels) ∧
        ∀ refused, (poolAfter cfg labels).submitBlocking submission job =
          some (false, refused) → refused = poolAfter cfg labels := by
  have hreach : (openMachine Job).Reachable (poolAfter cfg labels) :=
    Machine.Reachable.run (.start ⟨cfg, rfl⟩) hallowed
  obtain ⟨hconserved, hbounded⟩ := conserved_bounded_of_reachable hreach
  obtain ⟨hcfg, haccepted⟩ := records_run (newPool cfg : Pool Job) labels
  have hcfg : (poolAfter cfg labels).cfg = cfg := hcfg
  have haccepted : (poolAfter cfg labels).accepted = acceptedIn (newPool cfg) labels :=
    haccepted.trans (List.append_nil _)
  have hworking : (poolAfter cfg labels).semaphore ≤ cfg.concurrency :=
    hbounded.working.trans_eq (congrArg _ hcfg)
  refine ⟨?_, hbounded.tokens, hworking, ?_, ?_, ?_, hbounded.allowed_unwind,
    hbounded.alive, ?_⟩
  · rw [← haccepted]
    exact conserved_iff_perm.mp hconserved
  · rw [hbounded.tokens, Pool.slots] at hworking
    rw [List.length_append]
    exact (Nat.le_add_right ..).trans hworking
  · have hbuffered := hbounded.buffered
    rwa [hcfg] at hbuffered
  · exact fun index panics hindex => hbounded.freesSlot hindex panics
  · intro submission job
    exact ⟨refused_submit, fun _ => refused_submitBlocking⟩

/-- One worker and no buffer: the first job panics while the second is in hand, which gets
the slot once the first has unwound so far. -/
def panickingRun : List (Label String) :=
  [.start, .submit ⟨false, false, true⟩ "first", .spawn, .run 0,
    .submitBlocking ⟨false, false, true⟩ "second", .submit ⟨false, false, true⟩ "third",
    .finish 0 true, .unwind 0, .unwind 0, .spawn]

theorem accepted_perm_places_panickingRun :
    ["second", "first"].Perm (poolAfter ⟨1, 0⟩ panickingRun).places ∧
      (poolAfter ⟨1, 0⟩ panickingRun).slots = 1 ∧
      (poolAfter ⟨1, 0⟩ panickingRun).crashed = false := by
  have hallowed : (openMachine String).AllowedRun (newPool ⟨1, 0⟩) panickingRun :=
    ⟨⟨⟨rfl, rfl⟩, nofun⟩, ⟨rfl, nofun⟩, ⟨Nat.zero_lt_one, nofun⟩, ⟨trivial, nofun⟩,
      ⟨rfl, nofun⟩, ⟨rfl, nofun⟩, ⟨trivial, nofun⟩, ⟨fun _ => Nat.zero_lt_one, nofun⟩,
      ⟨fun _ => Nat.zero_lt_one, nofun⟩, ⟨Nat.zero_lt_one, nofun⟩, trivial⟩
  obtain ⟨hperm, htokens, -, -, -, -, -, halive, -⟩ := accepted_perm_places hallowed
  exact ⟨hperm, htokens.symm, halive⟩

end Conduit.WorkerPool
