import Conduit.Worker.Pool

/-!
# What `Stop` leaves behind

`Stop` closes the channel and waits for the goroutines the pool has started.  The
jobs still in the buffer are not among them.  As long as the dispatcher receives,
it empties the buffer before it sees the channel closed; but the case of the
cancelled context is ready too, and a dispatcher that takes it leaves the buffer to
nobody.
-/

namespace Conduit.WorkerPool

open Transition

variable {Job : Type*} {pool : Pool Job}

/-- Jobs are buffered and no dispatcher will come for them. -/
def Stranded (pool : Pool Job) : Prop :=
  pool.queue ≠ [] ∧
    (pool.dispatcher = .returned ∨ (pool.dispatcher = .unstarted ∧ pool.closed = true))

/-- The dispatcher returns on an empty buffer only, accepts no more work once it
has returned, and was started if the pool is stopped with work in the buffer. -/
def Attended (pool : Pool Job) : Label Job → Prop
  | .submit submission _ | .submitBlocking submission _ =>
      pool.dispatcher = .returned →
        submission.entryDone = true ∨ pool.sends submission = false
  | .leave => pool.queue = []
  | .stop => pool.dispatcher = .unstarted → pool.queue = []
  | _ => True

theorem not_stranded_send_iff {job : Job} (hopen : pool.closed = false)
    (hready : pool.sendReady = true) :
    ¬ Stranded (pool.send job) ↔ pool.dispatcher ≠ .returned := by
  rw [Pool.send]
  split
  case isTrue => simp [Stranded, hopen]
  case isFalse hfull =>
    have hselecting : pool.dispatcher = .selecting := selecting_of_sendReady hready hfull
    simp [Stranded, hselecting]

theorem not_stranded_submit_iff {submission : Pool.Submission} {job : Job}
    (hopen : pool.closed = false) :
    ¬ Stranded (pool.submit submission job).2 ↔
      ¬ Stranded pool ∧ Attended pool (.submit submission job) := by
  rw [Pool.submit]
  split
  case isTrue hdone => simp [Attended, hdone]
  case isFalse hentry =>
    split
    case isTrue hsends =>
      have hready : pool.sendReady = true := by
        rw [Pool.sends, decide_eq_true_iff] at hsends
        exact hsends.1
      rw [not_stranded_send_iff hopen hready]
      simp only [Stranded, Attended, hentry, hsends]
      grind
    case isFalse hsends => simp [Attended, hsends]

theorem not_stranded_step_iff {label : Label Job} (hallowed : pool.Allowed label) :
    ¬ Stranded (pool.step label) ↔ ¬ Stranded pool ∧ Attended pool label := by
  cases label with
  | start => simp [Stranded, Pool.step, Attended, hallowed.1, hallowed.2]
  | submit submission job => exact not_stranded_submit_iff hallowed
  | submitBlocking submission job =>
      rw [step_submitBlocking]
      exact not_stranded_submit_iff hallowed
  | receive =>
      obtain ⟨hselecting, -⟩ := hallowed
      rw [Pool.step, Pool.receive]
      split <;> simp_all [Stranded, Attended]
  | leave => simp [Stranded, Pool.step, Attended, hallowed.1]
  | spawn =>
      rw [Pool.step, Pool.spawn]
      split <;> simp_all [Stranded, Attended]
  | run index =>
      rw [Pool.step, Pool.run]
      split <;> exact (and_iff_left trivial).symm
  | finish index panics =>
      rw [Pool.step, Pool.finish]
      split <;> exact (and_iff_left trivial).symm
  | unwind index =>
      rw [Pool.step, Pool.unwind]
      split <;> exact (and_iff_left trivial).symm
  | cancel | stopReturns _ => exact (and_iff_left trivial).symm
  | stop =>
      constructor
      · intro hattended
        refine ⟨fun hstranded => hattended ⟨hstranded.1, ?_⟩, fun hunstarted => ?_⟩
        · exact hstranded.2.imp_right fun hclosed => ⟨hclosed.1, rfl⟩
        · by_contra hqueue
          exact hattended ⟨hqueue, .inr ⟨hunstarted, rfl⟩⟩
      · rintro ⟨hstranded, hattended⟩ ⟨hqueue, hreturned | ⟨hunstarted, -⟩⟩
        · exact hstranded ⟨hqueue, .inl hreturned⟩
        · exact hqueue (hattended hunstarted)

/-! ## The pool once `Stop` has returned nil -/

/-- `Stop` closes the channel, and returns nil with no goroutine left. -/
def StopOk (pool : Pool Job) : Prop :=
  (pool.stop ≠ .uncalled → pool.closed = true) ∧
    (pool.stop = .returnedNil → pool.idle = true)

theorem idle_iff :
    pool.idle = true ↔
      (pool.dispatcher = .unstarted ∨ pool.dispatcher = .returned) ∧
        pool.spawned = [] ∧ pool.running = [] ∧
        ∀ goroutine ∈ pool.unwinding, .done ∉ goroutine.deferred := by
  cases hdispatcher : pool.dispatcher <;> simp [Pool.idle, hdispatcher]

/-- A deferred function that has run does not come back. -/
theorem done_notMem_unwind (index : ℕ)
    (hdone : ∀ goroutine ∈ pool.unwinding, .done ∉ goroutine.deferred) :
    ∀ goroutine ∈ (pool.unwind index).unwinding, .done ∉ goroutine.deferred := by
  have hset : ∀ (found left : Unwinding), pool.unwinding[index]? = some found →
      left.deferred.Sublist found.deferred →
      ∀ goroutine ∈ pool.unwinding.set index left, .done ∉ goroutine.deferred := by
    intro found left hfound hsublist goroutine hmem
    rcases List.mem_or_eq_of_mem_set hmem with hold | rfl
    · exact hdone goroutine hold
    · exact fun hleft => hdone found (List.mem_of_getElem? hfound) (hsublist.subset hleft)
  rw [Pool.unwind]
  split
  case h_1 => exact hdone
  case h_2 => exact fun goroutine hmem => hdone goroutine (List.mem_of_mem_eraseIdx hmem)
  case h_3 panicking rest hfound => exact hset _ _ hfound (List.sublist_cons_self ..)
  case h_4 panicking rest hfound => exact hset _ _ hfound (List.sublist_cons_self ..)
  case h_5 panicking rest hfound => exact hset _ _ hfound (List.sublist_cons_self ..)

/-- An idle pool with its channel closed has nothing left to do. -/
theorem idle_step {label : Label Job} (hallowed : pool.Allowed label)
    (hclosed : pool.closed = true) (hidle : pool.idle = true) :
    (pool.step label).idle = true := by
  obtain ⟨hdispatcher, hspawned, hrunning, hdone⟩ := idle_iff.mp hidle
  cases label with
  | start => exact absurd hclosed (Bool.eq_false_iff.mp hallowed.2)
  | submit submission job => exact absurd hclosed (Bool.eq_false_iff.mp hallowed)
  | submitBlocking submission job => exact absurd hclosed (Bool.eq_false_iff.mp hallowed)
  | receive =>
      rw [hallowed.1] at hdispatcher
      simp at hdispatcher
  | leave =>
      rw [hallowed.1] at hdispatcher
      simp at hdispatcher
  | spawn =>
      have hspawn : pool.spawn = pool := by
        rw [Pool.spawn]
        split <;> simp_all
      rwa [Pool.step, hspawn]
  | run index => simpa [Pool.step, Pool.run, hspawned] using hidle
  | finish index panics => simpa [Pool.step, Pool.finish, hrunning] using hidle
  | unwind index =>
      have hkept : (pool.unwind index).dispatcher = pool.dispatcher ∧
          (pool.unwind index).spawned = pool.spawned ∧
          (pool.unwind index).running = pool.running := by
        rw [Pool.unwind]
        split <;> exact ⟨rfl, rfl, rfl⟩
      rw [Pool.step, idle_iff, hkept.1, hkept.2.1, hkept.2.2]
      exact ⟨hdispatcher, hspawned, hrunning, done_notMem_unwind index hdone⟩
  | cancel | stop | stopReturns _ => exact hidle

theorem stop_send {job : Job} :
    (pool.send job).stop = pool.stop ∧ (pool.send job).closed = pool.closed := by
  rw [Pool.send]
  split <;> exact ⟨rfl, rfl⟩

theorem stop_submit {submission : Pool.Submission} {job : Job} :
    (pool.submit submission job).2.stop = pool.stop ∧
      (pool.submit submission job).2.closed = pool.closed := by
  rw [Pool.submit]
  split
  · exact ⟨rfl, rfl⟩
  · split
    · exact stop_send
    · exact ⟨rfl, rfl⟩

/-- Only `Stop` itself closes the channel or returns. -/
theorem stop_step (pool : Pool Job) (label : Label Job) :
    ((pool.step label).stop = pool.stop ∧ (pool.step label).closed = pool.closed) ∨
      label = .stop ∨ ∃ expired, label = .stopReturns expired := by
  cases label with
  | stop => exact .inr (.inl rfl)
  | stopReturns expired => exact .inr (.inr ⟨expired, rfl⟩)
  | submit submission job => exact .inl stop_submit
  | submitBlocking submission job =>
      left
      rw [step_submitBlocking]
      exact stop_submit
  | receive =>
      left
      rw [Pool.step, Pool.receive]
      split <;> exact ⟨rfl, rfl⟩
  | spawn =>
      left
      rw [Pool.step, Pool.spawn]
      split <;> exact ⟨rfl, rfl⟩
  | run index =>
      left
      rw [Pool.step, Pool.run]
      split <;> exact ⟨rfl, rfl⟩
  | finish index panics =>
      left
      rw [Pool.step, Pool.finish]
      split <;> exact ⟨rfl, rfl⟩
  | unwind index =>
      left
      rw [Pool.step, Pool.unwind]
      split <;> exact ⟨rfl, rfl⟩
  | start | leave | cancel => exact .inl ⟨rfl, rfl⟩

theorem stopOk_step {label : Label Job} (hallowed : pool.Allowed label)
    (hstop : StopOk pool) : StopOk (pool.step label) := by
  rcases stop_step pool label with ⟨hsame, hclosed⟩ | rfl | ⟨expired, rfl⟩
  · constructor
    · rw [hsame, hclosed]
      exact hstop.1
    · rw [hsame]
      intro hnil
      have hcalled : pool.stop ≠ .uncalled := by
        rw [hnil]
        decide
      exact idle_step hallowed (hstop.1 hcalled) (hstop.2 hnil)
  · exact ⟨fun _ => rfl, fun hnil => nomatch hnil⟩
  · have hcalled : pool.stop ≠ .uncalled := by
      rw [hallowed.1]
      decide
    constructor
    · intro _
      exact hstop.1 hcalled
    · intro hnil
      cases expired with
      | true => exact nomatch hnil
      | false => exact hallowed.2.resolve_left Bool.false_ne_true

theorem stopOk (hreach : (machine Job).Reachable pool) : StopOk pool := by
  apply hreach.invariant StopOk
  · rintro pool ⟨cfg, hconcurrency, rfl⟩
    exact ⟨fun huncalled => absurd rfl huncalled, fun hnil => nomatch hnil⟩
  · intro pool label hreach hallowed hstop
    exact stopOk_step hallowed hstop

/-- What an idle pool has accepted it has run, but for what is in the buffer. -/
theorem handed_perm_accepted_iff (hconserved : Conserved pool) (hidle : pool.idle = true) :
    pool.handed.Perm pool.accepted ↔ pool.queue = [] := by
  obtain ⟨hdispatcher, hspawned, hrunning, -⟩ := idle_iff.mp hidle
  have hhand : pool.hand = [] := by
    rw [Pool.hand]
    rcases hdispatcher with hdispatcher | hdispatcher <;> rw [hdispatcher]
  have haccepted : (pool.accepted : Multiset Job) = pool.queue + pool.finished := by
    rw [hconserved, hhand, hspawned, hrunning]
    simp only [Multiset.coe_nil, add_zero]
  have hhanded : pool.handed = pool.finished := by rw [Pool.handed, hrunning, List.nil_append]
  rw [← Multiset.coe_eq_coe, haccepted, hhanded, right_eq_add]
  exact Multiset.coe_eq_zero pool.queue

theorem not_stranded_iff_of_idle (hidle : pool.idle = true) (hclosed : pool.closed = true) :
    ¬ Stranded pool ↔ pool.queue = [] := by
  obtain ⟨hdispatcher, -⟩ := idle_iff.mp hidle
  rw [Stranded, and_iff_left, not_not]
  exact hdispatcher.symm.imp_right fun hunstarted => ⟨hunstarted, hclosed⟩

/-- When `Stop` has returned nil, every accepted job was handed to the runner exactly
once precisely if the dispatcher attended to the channel throughout the run: jobs in
the buffer are not awaited. -/
theorem accepted_handed_iff {cfg : Config} {labels : List (Label Job)}
    (hconcurrency : 1 ≤ cfg.concurrency)
    (hallowed : (machine Job).AllowedRun (newPool cfg) labels)
    (hnil : ((machine Job).run (newPool cfg) labels).stop = .returnedNil) :
    ((machine Job).run (newPool cfg) labels).handed.Perm
        ((machine Job).run (newPool cfg) labels).accepted ↔
      ((machine Job).restrict Attended).AllowedRun (newPool cfg) labels := by
  have hreach : (machine Job).Reachable ((machine Job).run (newPool cfg) labels) :=
    Machine.Reachable.run (.start ⟨cfg, hconcurrency, rfl⟩) hallowed
  obtain ⟨hclosed, hidle⟩ := stopOk hreach
  have hcalled : ((machine Job).run (newPool cfg) labels).stop ≠ .uncalled := by
    rw [hnil]
    decide
  have hattended := Machine.run_iff_restrict (fun pool => ¬ Stranded pool)
    (fun pool label => not_stranded_step_iff) hallowed
  have hempty : ¬ Stranded (newPool cfg : Pool Job) := fun hstranded => hstranded.1 rfl
  rw [handed_perm_accepted_iff (conserved hreach) (hidle hnil),
    ← not_stranded_iff_of_idle (hidle hnil) (hclosed hcalled), hattended]
  exact and_iff_right hempty

def oneWorker : Config where
  concurrency := 1
  queueSize := 1

/-- `Stop` is called while the job runs, and the context is cancelled after it. -/
def drainedRun : List (Label String) :=
  [.start, .submit ⟨false, false, true⟩ "job", .receive, .spawn, .run 0, .stop,
    .finish 0 false, .unwind 0, .unwind 0, .unwind 0, .receive, .cancel, .stopReturns false]

theorem accepted_handed_drainedRun :
    ((machine String).run (newPool oneWorker) drainedRun).handed.Perm
      ((machine String).run (newPool oneWorker) drainedRun).accepted := by
  have hallowed : (machine String).AllowedRun (newPool oneWorker) drainedRun :=
    ⟨⟨rfl, rfl⟩, rfl, ⟨rfl, .inl (List.cons_ne_nil _ _)⟩, Nat.zero_lt_one, trivial, rfl,
      trivial, fun _ => Nat.zero_lt_one, fun _ => Nat.zero_lt_one,
      fun hfree => absurd hfree (by decide),
      ⟨rfl, .inr rfl⟩, trivial, ⟨rfl, .inr rfl⟩, trivial⟩
  have hattended :
      ((machine String).restrict Attended).AllowedRun (newPool oneWorker) drainedRun :=
    ⟨⟨hallowed.1, trivial⟩, ⟨rfl, nofun⟩, ⟨⟨rfl, .inl (List.cons_ne_nil _ _)⟩, trivial⟩,
      ⟨Nat.zero_lt_one, trivial⟩, ⟨trivial, trivial⟩, ⟨rfl, nofun⟩, ⟨trivial, trivial⟩,
      ⟨fun _ => Nat.zero_lt_one, trivial⟩, ⟨fun _ => Nat.zero_lt_one, trivial⟩,
      ⟨fun hfree => absurd hfree (by decide), trivial⟩, ⟨⟨rfl, .inr rfl⟩, trivial⟩,
      ⟨trivial, trivial⟩, ⟨⟨rfl, .inr rfl⟩, trivial⟩, trivial⟩
  exact (accepted_handed_iff (le_refl 1) hallowed rfl).mpr hattended

/-- The context is cancelled before the dispatcher has looked at the channel. -/
def cancelledRun : List (Label String) :=
  [.start, .submit ⟨false, false, true⟩ "job", .cancel, .leave, .stop, .stopReturns false]

theorem not_forall_accepted_handed :
    ¬ ∀ (cfg : Config) (labels : List (Label String)), 1 ≤ cfg.concurrency →
      (machine String).AllowedRun (newPool cfg) labels →
      ((machine String).run (newPool cfg) labels).stop = .returnedNil →
        ((machine String).run (newPool cfg) labels).handed.Perm
          ((machine String).run (newPool cfg) labels).accepted := by
  intro hforall
  have hallowed : (machine String).AllowedRun (newPool oneWorker) cancelledRun :=
    ⟨⟨rfl, rfl⟩, rfl, trivial, ⟨rfl, rfl⟩, rfl, ⟨rfl, .inr rfl⟩, trivial⟩
  have hhanded := hforall oneWorker cancelledRun (le_refl 1) hallowed rfl
  exact absurd hhanded.length_eq (by decide)

end Conduit.WorkerPool
