import Conduit.Reconciler.RefusedClaims

/-!
# The reconciler's goroutine

`Start` runs one pass after the other in a goroutine of its own.  Between two passes it
waits for a timer, for `Wake`, which leaves a token in a channel of depth one, or for its
context.  `Stop` cancels the context and waits until the goroutines have returned.

Any number of callers use `Start`, `Stop` and `Wake`.  The two methods with a mutex are cut
where they give it back: `Start` adds to the wait group and starts its goroutine only then,
so a `Stop` that comes between the two does not wait for it.

The time at which the token came, and the passes and calls of `Wake` one after the other, are
recorded beside what the program keeps.  A pass under a context that is done when it begins is
not counted.
-/

namespace Conduit.ReconcilerLoop

open Models Transition JobService
open JobMachine (plainEnv)
open Reconciler (Pass Begins)

/-- `cfg.Interval` as `New` leaves it. -/
def newInterval (interval : ℤ) : ℤ :=
  if interval ≤ 0 then minute else interval

/-- `cfg.IdleInterval` as `New` leaves it. -/
def newIdleInterval (interval idleInterval : ℤ) : ℤ :=
  let idleInterval := if idleInterval ≤ 0 then interval else idleInterval
  if idleInterval < interval then interval else idleInterval

theorem newInterval_pos (interval : ℤ) : 0 < newInterval interval := by
  rw [newInterval]
  split
  · decide
  · exact not_le.mp ‹_›

theorem le_newIdleInterval (interval idleInterval : ℤ) :
    interval ≤ newIdleInterval interval idleInterval := by
  dsimp only [newIdleInterval]
  generalize (if idleInterval ≤ 0 then interval else idleInterval) = idle
  split
  · exact le_rfl
  · exact not_lt.mp ‹_›

/-- The intervals of a reconciler. -/
structure Intervals where
  interval : ℤ
  idleInterval : ℤ
  positive : 0 < interval
  ordered : interval ≤ idleInterval

def newIntervals (interval idleInterval : ℤ) : Intervals where
  interval := newInterval interval
  idleInterval := newIdleInterval (newInterval interval) idleInterval
  positive := newInterval_pos interval
  ordered := le_newIdleInterval ..

def Intervals.nextInterval (cfg : Intervals) (hadWork : Bool) : ℤ :=
  if hadWork then cfg.interval else cfg.idleInterval

/-! ## The system -/

/-- Where the goroutine of a `Start` is. -/
inductive Stage
  /-- `Start` has given the mutex back and the goroutine is still to be started. -/
  | adding
  | passing (pass : Pass)
  /-- It waits, since that time, with a timer set to so long. -/
  | selecting (since wait : ℤ)
  | returned

structure Goroutine where
  /-- Its context is done. -/
  cancelled : Bool
  stage : Stage

/-- A call of `Stop` that has given the mutex back, with the number of goroutines there
were by then. -/
inductive Stopper
  | waiting (before : ℕ)
  | returned (before : ℕ)
  deriving DecidableEq

def Stopper.before : Stopper → ℕ
  | .waiting before | .returned before => before

/-- A call of `Wake` or the beginning of a pass, and when. -/
inductive Mark
  | woke (time : ℤ)
  | began (time : ℤ)

structure State where
  cfg : Intervals
  clock : ℤ
  /-- The token in the channel, with the time it came. -/
  wake : Option ℤ
  /-- The goroutine whose context `cancel` belongs to. -/
  cancel : Option ℕ
  /-- The context given to `Start` is done. -/
  parentDone : Bool
  loops : List Goroutine
  stops : List Stopper
  /-- The latest first. -/
  trace : List Mark

/-- What a goroutine does next. -/
inductive Move
  | spawn (pass : Pass)
  /-- A step of the pass under way. -/
  | pass (label : Reconciler.Label)
  | passEnds
  /-- The cases of the `select`. -/
  | timer (pass : Pass)
  | woken (pass : Pass)
  | done

inductive Label
  | tick (duration : ℕ)
  | start
  | stop
  | stopReturns (index : ℕ)
  | wake
  | parentDone
  | move (index : ℕ) (move : Move)

/-- The context of a goroutine is cancelled, and with it that of its pass. -/
def Goroutine.cancel (loop : Goroutine) : Goroutine where
  cancelled := true
  stage :=
    match loop.stage with
    | .passing pass => .passing { pass with cancelled := true }
    | stage => stage

namespace State

def setStage (state : State) (index : ℕ) (loop : Goroutine) (stage : Stage) : State :=
  { state with loops := state.loops.set index { loop with stage } }

/-- A goroutine begins a pass. -/
def beginPass (state : State) (index : ℕ) (loop : Goroutine) (pass : Pass) : State :=
  { state.setStage index loop (.passing { pass with cancelled := loop.cancelled }) with
    trace := if loop.cancelled then state.trace else .began state.clock :: state.trace }

/-- The critical section of `Start`. -/
def start (state : State) : State :=
  match state.cancel with
  | some _ => state
  | none => { state with
      cancel := some state.loops.length
      loops := state.loops ++ [⟨state.parentDone, .adding⟩] }

/-- The critical section of `Stop`. -/
def stop (state : State) : State := { state with
  cancel := none
  loops := match state.cancel with
    | none => state.loops
    | some index => state.loops.modify index Goroutine.cancel
  stops := state.stops ++ [.waiting state.loops.length] }

def act (state : State) (index : ℕ) (loop : Goroutine) : Move → State
  | .spawn pass | .timer pass => state.beginPass index loop pass
  | .woken pass => { state.beginPass index loop pass with wake := none }
  | .pass label =>
      match loop.stage with
      | .passing pass => state.setStage index loop (.passing (pass.step label))
      | _ => state
  | .passEnds =>
      match loop.stage with
      | .passing pass => state.setStage index loop
          (.selecting state.clock (state.cfg.nextInterval pass.hadWork))
      | _ => state
  | .done => state.setStage index loop .returned

def step (state : State) : Label → State
  | .tick duration => { state with clock := state.clock + duration }
  | .start => state.start
  | .stop => state.stop
  | .stopReturns index =>
      match state.stops[index]? with
      | none => state
      | some stopper => { state with stops := state.stops.set index (.returned stopper.before) }
  | .wake => { state with
      wake := some (state.wake.getD state.clock), trace := .woke state.clock :: state.trace }
  | .parentDone => { state with
      parentDone := true, loops := state.loops.map Goroutine.cancel }
  | .move index move =>
      match state.loops[index]? with
      | none => state
      | some loop => state.act index loop move

/-- When a goroutine in its `select` could first leave it. -/
def due (state : State) (since wait : ℤ) : ℤ :=
  match state.wake with
  | none => since + wait
  | some came => min (since + wait) (max since came)

def Enabled (state : State) (loop : Goroutine) : Move → Prop
  | .spawn pass => loop.stage = .adding ∧ Begins pass
  | .pass label => label ≠ .cancel ∧ ∃ pass, loop.stage = .passing pass ∧ pass.Allowed label
  | .passEnds => ∃ pass, loop.stage = .passing pass ∧ pass.stage = .returned
  | .timer pass => Begins pass ∧
      ∃ since wait, loop.stage = .selecting since wait ∧ since + wait ≤ state.clock
  | .woken pass => Begins pass ∧ state.wake.isSome = true ∧
      ∃ since wait, loop.stage = .selecting since wait
  | .done => loop.cancelled = true ∧ ∃ since wait, loop.stage = .selecting since wait

end State

/-- The wait group counts the goroutine. -/
def Stage.counted : Stage → Bool
  | .passing _ | .selecting .. => true
  | .adding | .returned => false

/-- A goroutine that can leave its `select` does so within `lag`. -/
def machine (lag : ℕ) : Machine State Label where
  Init state := state.wake = none ∧ state.cancel = none ∧ state.parentDone = false ∧
    state.loops = [] ∧ state.stops = [] ∧ state.trace = []
  Allowed state
    | .tick duration => ∀ loop ∈ state.loops, ∀ since wait,
        loop.stage = .selecting since wait → state.clock + duration ≤ state.due since wait + lag
    | .stopReturns index => (∃ before, state.stops[index]? = some (.waiting before)) ∧
        ∀ loop ∈ state.loops, loop.stage.counted = false
    | .move index move => ∃ loop, state.loops[index]? = some loop ∧ state.Enabled loop move
    | .start | .stop | .wake | .parentDone => True
  step := State.step

/-! ## What a move can do -/

section Moves

variable {state : State} {index : ℕ} {loop : Goroutine} {move : Move}

/-- What a move leads to. -/
inductive Moved (state : State) (index : ℕ) (loop : Goroutine) : State → Prop
  | began (pass : Pass) (hbegins : Begins pass) (wake : Option ℤ)
      (hwake : wake = state.wake ∨ wake = none) :
      Moved state index loop { state.beginPass index loop pass with wake }
  | passed (pass : Pass) (label : Reconciler.Label) (hstage : loop.stage = .passing pass)
      (hlabel : label ≠ .cancel) :
      Moved state index loop (state.setStage index loop (.passing (pass.step label)))
  | ended (pass : Pass) :
      Moved state index loop (state.setStage index loop
        (.selecting state.clock (state.cfg.nextInterval pass.hadWork)))
  | left : Moved state index loop (state.setStage index loop .returned)

theorem moved_act (henabled : state.Enabled loop move) :
    Moved state index loop (state.act index loop move) := by
  cases move with
  | spawn pass => exact .began pass henabled.2 state.wake (.inl rfl)
  | timer pass => exact .began pass henabled.1 state.wake (.inl rfl)
  | woken pass => exact .began pass henabled.1 none (.inr rfl)
  | pass label =>
      obtain ⟨hlabel, pass, hstage, -⟩ := henabled
      rw [State.act, hstage]
      exact .passed pass label hstage hlabel
  | passEnds =>
      obtain ⟨pass, hstage, -⟩ := henabled
      rw [State.act, hstage]
      exact .ended pass
  | done => exact .left

end Moves

theorem step_move {state : State} {index : ℕ} {loop : Goroutine} {move : Move}
    (hloop : state.loops[index]? = some loop) :
    state.step (.move index move) = state.act index loop move := by
  rw [State.step, hloop]

/-! ## A pass whose context is done -/

/-- A pass that began under a context that was done has claimed nothing. -/
structure Idle (pass : Pass) : Prop where
  cancelled : pass.cancelled = true
  batchSize : 0 < pass.cfg.batchSize
  claimed : pass.claimed = 0
  claims : pass.claims = []
  accepted : pass.accepted = []
  stage : pass.stage = .reap ∨ pass.stage = .loop ∨ pass.stage = .returned

theorem idle_of_begins {pass : Pass} (hbegins : Begins pass) :
    Idle { pass with cancelled := true } := by
  obtain ⟨⟨cfg, hcfg⟩, -, -, hstage, -, hclaimed, hclaims, haccepted, -⟩ := hbegins
  refine ⟨rfl, ?_, hclaimed, hclaims, haccepted, .inl hstage⟩
  change 0 < pass.cfg.batchSize
  rw [hcfg, Reconciler.new]
  dsimp only
  split <;> omega

theorem Idle.advance {pass : Pass} (hidle : Idle pass) (env : Env) (prefersSend : Bool) :
    (pass.advance env prefersSend).table = pass.table ∧
      (pass.advance env prefersSend).pool = pass.pool ∧
      Idle (pass.advance env prefersSend) := by
  obtain ⟨hcancelled, hbatch, hclaimed, hclaims, haccepted, hstage⟩ := hidle
  rw [Pass.advance]
  rcases hstage with hstage | hstage | hstage
  · rw [hstage]
    dsimp only [Pass.reap]
    rw [if_pos hcancelled]
    exact ⟨rfl, rfl, hcancelled, hbatch, hclaimed, hclaims, haccepted, .inr (.inl rfl)⟩
  · have hmore : (pass.claimed : ℤ) < pass.cfg.batchSize := by
      rw [hclaimed]
      exact hbatch
    rw [hstage]
    dsimp only [Pass.loop]
    rw [if_pos hmore, hcancelled]
    exact ⟨rfl, rfl, rfl, hbatch, hclaimed, hclaims, haccepted, .inr (.inr rfl)⟩
  · rw [hstage]
    exact ⟨rfl, rfl, hcancelled, hbatch, hclaimed, hclaims, haccepted, .inr (.inr hstage)⟩

theorem Idle.step {pass : Pass} (hidle : Idle pass) (label : Reconciler.Label) :
    Idle (pass.step label) := by
  cases label with
  | cancel => exact { hidle with cancelled := rfl }
  | others table | pool label => exact { hidle with }
  | step env prefersSend => exact (hidle.advance env prefersSend).2.2

theorem cancelled_step (pass : Pass) {label : Reconciler.Label} (hlabel : label ≠ .cancel) :
    (pass.step label).cancelled = pass.cancelled := by
  cases label with
  | cancel => exact absurd rfl hlabel
  | others table | pool label => rfl
  | step env prefersSend =>
      exact Reconciler.cancelled_of_advances Reconciler.advances_advance

/-! ## Stop -/

/-- What is known of the goroutines and of the calls of `Stop`. -/
structure StopInv (state : State) : Prop where
  live : ∀ {index : ℕ} {loop : Goroutine}, state.loops[index]? = some loop →
    loop.cancelled = false → state.cancel = some index
  context : ∀ {index : ℕ} {loop : Goroutine} {pass : Pass}, state.loops[index]? = some loop →
    loop.stage = .passing pass → pass.cancelled = loop.cancelled
  before : ∀ stopper ∈ state.stops, stopper.before ≤ state.loops.length
  stopped : ∀ stopper ∈ state.stops, ∀ {index : ℕ} {loop : Goroutine},
    index < stopper.before → state.loops[index]? = some loop → loop.cancelled = true
  silent : ∀ {before : ℕ}, .returned before ∈ state.stops →
    ∀ {index : ℕ} {loop : Goroutine} {pass : Pass}, index < before →
      state.loops[index]? = some loop → loop.stage = .passing pass → Idle pass

section Stop

variable {state : State} {index : ℕ} {loop : Goroutine}

/-- A goroutine moves to a stage.  If that is a pass, it goes on from the pass it was at or
began under the context of the goroutine. -/
theorem StopInv.setStage (hinv : StopInv state) (hloop : state.loops[index]? = some loop)
    {stage : Stage}
    (hstage : ∀ pass, stage = .passing pass → pass.cancelled = loop.cancelled ∧
      ((loop.cancelled = true → Idle pass) ∨
        ∃ old, loop.stage = .passing old ∧ (Idle old → Idle pass))) :
    StopInv (state.setStage index loop stage) where
  live := by
    intro other moved hmoved hlive
    rcases party_of_set hmoved with ⟨rfl, rfl⟩ | ⟨-, hother⟩
    · exact hinv.live hloop hlive
    · exact hinv.live hother hlive
  context := by
    intro other moved pass hmoved hpassing
    rcases party_of_set hmoved with ⟨rfl, rfl⟩ | ⟨-, hother⟩
    · exact (hstage pass hpassing).1
    · exact hinv.context hother hpassing
  before := by
    intro stopper hstopper
    exact (hinv.before stopper hstopper).trans_eq (List.length_set ..).symm
  stopped := by
    intro stopper hstopper other moved hbefore hmoved
    rcases party_of_set hmoved with ⟨rfl, rfl⟩ | ⟨-, hother⟩
    · have hcancelled := hinv.stopped stopper hstopper hbefore hloop
      exact hcancelled
    · exact hinv.stopped stopper hstopper hbefore hother
  silent := by
    intro before hreturned other moved pass hbefore hmoved hpassing
    rcases party_of_set hmoved with ⟨rfl, rfl⟩ | ⟨-, hother⟩
    · rcases (hstage pass hpassing).2 with hidle | ⟨old, hold, hidle⟩
      · exact hidle (hinv.stopped _ hreturned hbefore hloop)
      · exact hidle (hinv.silent hreturned hbefore hloop hold)
    · exact hinv.silent hreturned hbefore hother hpassing

theorem StopInv.moved {after : State} (hinv : StopInv state)
    (hloop : state.loops[index]? = some loop) (hmoved : Moved state index loop after) :
    StopInv after := by
  cases hmoved with
  | began pass hbegins wake hwake =>
      have hset : StopInv (state.setStage index loop
          (.passing { pass with cancelled := loop.cancelled })) := by
        refine hinv.setStage hloop fun begun hbegun => ?_
        obtain rfl := Stage.passing.inj hbegun
        refine ⟨rfl, .inl fun hcancelled => ?_⟩
        rw [hcancelled]
        exact idle_of_begins hbegins
      exact { hset with }
  | passed pass label hstage hlabel =>
      refine hinv.setStage hloop fun stepped hstepped => ?_
      obtain rfl := Stage.passing.inj hstepped
      refine ⟨?_, .inr ⟨pass, hstage, fun hidle => hidle.step label⟩⟩
      rw [← hinv.context hloop hstage, cancelled_step pass hlabel]
  | ended pass =>
      refine hinv.setStage hloop fun stepped hstepped => ?_
      cases hstepped
  | left =>
      refine hinv.setStage hloop fun stepped hstepped => ?_
      cases hstepped

/-- A goroutine whose context has been cancelled. -/
structure Cancelled (old loop : Goroutine) : Prop where
  cancelled : loop.cancelled = true
  pass : ∀ pass, loop.stage = .passing pass →
    ∃ before, old.stage = .passing before ∧ pass = { before with cancelled := true }

theorem cancelled_cancel (loop : Goroutine) : Cancelled loop loop.cancel where
  cancelled := rfl
  pass pass hpassing := by
    cases hstage : loop.stage with
    | passing before =>
        rw [Goroutine.cancel, hstage] at hpassing
        exact ⟨before, rfl, (Stage.passing.inj hpassing).symm⟩
    | _ =>
        rw [Goroutine.cancel, hstage] at hpassing
        cases hpassing

theorem cancelled_refl (hcancelled : loop.cancelled = true)
    (hcontext : ∀ pass, loop.stage = .passing pass → pass.cancelled = loop.cancelled) :
    Cancelled loop loop where
  cancelled := hcancelled
  pass pass hpassing := by
    refine ⟨pass, hpassing, ?_⟩
    rw [← hcancelled, ← hcontext pass hpassing]

/-- Contexts are cancelled, and none is left that is not. -/
theorem StopInv.cancelAll (hinv : StopInv state) {after : State}
    (hlength : after.loops.length = state.loops.length)
    (hloops : ∀ {index : ℕ} {loop : Goroutine}, after.loops[index]? = some loop →
      ∃ old, state.loops[index]? = some old ∧ Cancelled old loop)
    (hstops : ∀ stopper ∈ after.stops,
      stopper ∈ state.stops ∨ stopper = .waiting state.loops.length) : StopInv after where
  live := by
    intro index loop hloop hlive
    obtain ⟨old, -, hcancelled⟩ := hloops hloop
    rw [hcancelled.cancelled] at hlive
    cases hlive
  context := by
    intro index loop pass hloop hpassing
    obtain ⟨old, -, hcancelled⟩ := hloops hloop
    obtain ⟨before, -, rfl⟩ := hcancelled.pass pass hpassing
    exact hcancelled.cancelled.symm
  before := by
    intro stopper hstopper
    rw [hlength]
    rcases hstops stopper hstopper with hold | rfl
    · exact hinv.before stopper hold
    · exact le_rfl
  stopped := by
    intro stopper hstopper index loop hbefore hloop
    obtain ⟨old, -, hcancelled⟩ := hloops hloop
    exact hcancelled.cancelled
  silent := by
    intro before hreturned index loop pass hbefore hloop hpassing
    rcases hstops _ hreturned with hold | hnew
    · obtain ⟨old, hmem, hcancelled⟩ := hloops hloop
      obtain ⟨begun, hbegun, rfl⟩ := hcancelled.pass pass hpassing
      exact (hinv.silent hold hbefore hmem hbegun).step .cancel
    · cases hnew

theorem StopInv.start (hinv : StopInv state) : StopInv state.start := by
  rw [State.start]
  cases hcancel : state.cancel with
  | some index => exact hinv
  | none =>
      constructor
      · intro index loop hloop hlive
        rcases party_of_join hloop with hold | ⟨rfl, rfl⟩
        · have hcurrent := hinv.live hold hlive
          rw [hcancel] at hcurrent
          cases hcurrent
        · rfl
      · intro index loop pass hloop hpassing
        rcases party_of_join hloop with hold | ⟨rfl, rfl⟩
        · exact hinv.context hold hpassing
        · cases hpassing
      · intro stopper hstopper
        refine (hinv.before stopper hstopper).trans ?_
        rw [List.length_append]
        exact Nat.le_add_right _ _
      · intro stopper hstopper index loop hbefore hloop
        rcases party_of_join hloop with hold | ⟨rfl, -⟩
        · exact hinv.stopped stopper hstopper hbefore hold
        · exact absurd (hinv.before stopper hstopper) (not_le.mpr hbefore)
      · intro before hreturned index loop pass hbefore hloop hpassing
        rcases party_of_join hloop with hold | ⟨-, rfl⟩
        · exact hinv.silent hreturned hbefore hold hpassing
        · cases hpassing

/-- The goroutines after the critical section of `Stop`: the context of the current one is
cancelled, and those of the others were. -/
theorem StopInv.stop (hinv : StopInv state) : StopInv state.stop := by
  have hrefl : ∀ {index : ℕ} {loop : Goroutine}, state.loops[index]? = some loop →
      state.cancel ≠ some index → Cancelled loop loop := by
    intro index loop hloop hother
    refine cancelled_refl ?_ fun pass hpassing => hinv.context hloop hpassing
    exact Bool.eq_true_of_not_eq_false fun hlive => hother (hinv.live hloop hlive)
  refine hinv.cancelAll ?_ ?_ ?_
  · rw [State.stop]
    cases state.cancel with
    | none => rfl
    | some index => exact List.length_modify ..
  · intro index loop hloop
    rw [State.stop] at hloop
    cases hcancel : state.cancel with
    | none =>
        rw [hcancel] at hloop
        exact ⟨loop, hloop, hrefl hloop (by rw [hcancel]; nofun)⟩
    | some current =>
        rw [hcancel] at hloop
        dsimp only at hloop
        rw [List.getElem?_modify] at hloop
        obtain ⟨old, hold, rfl⟩ := Option.map_eq_some_iff.mp hloop
        refine ⟨old, hold, ?_⟩
        by_cases hcurrent : current = index
        · rw [if_pos hcurrent]
          exact cancelled_cancel old
        · rw [if_neg hcurrent]
          exact hrefl hold fun hsame => hcurrent (Option.some.inj (hcancel.symm.trans hsame))
  · intro stopper hstopper
    rcases List.mem_append.mp hstopper with hold | hnew
    · exact .inl hold
    · exact .inr (List.mem_singleton.mp hnew)

theorem StopInv.parentDone (hinv : StopInv state) : StopInv (state.step .parentDone) := by
  refine hinv.cancelAll (List.length_map ..) ?_ fun stopper hstopper => .inl hstopper
  intro index loop hloop
  rw [State.step, List.getElem?_map] at hloop
  obtain ⟨old, hold, rfl⟩ := Option.map_eq_some_iff.mp hloop
  exact ⟨old, hold, cancelled_cancel old⟩

/-- `Stop` returns when no goroutine is left that the wait group counts. -/
theorem StopInv.stopReturns (hinv : StopInv state)
    (hidle : ∀ loop ∈ state.loops, loop.stage.counted = false) :
    StopInv (state.step (.stopReturns index)) := by
  rw [State.step]
  cases hstopper : state.stops[index]? with
  | none => exact hinv
  | some stopper =>
      have hmem := List.mem_of_getElem? hstopper
      have hstops : ∀ other ∈ state.stops.set index (.returned stopper.before),
          ∃ old ∈ state.stops, other.before = old.before := by
        intro other hother
        rcases List.mem_or_eq_of_mem_set hother with hold | rfl
        · exact ⟨other, hold, rfl⟩
        · exact ⟨stopper, hmem, rfl⟩
      refine ⟨hinv.live, hinv.context, ?_, ?_, ?_⟩
      · intro other hother
        obtain ⟨old, hold, hbefore⟩ := hstops other hother
        exact hbefore.trans_le (hinv.before old hold)
      · intro other hother number loop hnumber hloop
        obtain ⟨old, hold, hbefore⟩ := hstops other hother
        exact hinv.stopped old hold (hbefore ▸ hnumber) hloop
      · intro before hreturned number loop pass hnumber hloop hpassing
        have hcounted := hidle loop (List.mem_of_getElem? hloop)
        rw [hpassing] at hcounted
        cases hcounted

theorem StopInv.step {lag : ℕ} {label : Label} (hinv : StopInv state)
    (hallowed : (machine lag).Allowed state label) : StopInv (state.step label) := by
  cases label with
  | tick duration => exact { hinv with }
  | start => exact hinv.start
  | stop => exact hinv.stop
  | stopReturns index => exact hinv.stopReturns hallowed.2
  | wake => exact { hinv with }
  | parentDone => exact hinv.parentDone
  | move index move =>
      obtain ⟨loop, hloop, henabled⟩ := hallowed
      rw [step_move hloop]
      exact hinv.moved hloop (moved_act henabled)

theorem stopInv {lag : ℕ} (hreach : (machine lag).Reachable state) : StopInv state := by
  refine hreach.invariant StopInv ?_ fun _ _ _ hallowed hinv => hinv.step hallowed
  rintro initial ⟨-, -, -, hloops, hstops, -⟩
  have hnone : ∀ {index : ℕ} {loop : Goroutine}, initial.loops[index]? ≠ some loop := by
    intro index loop hloop
    rw [hloops] at hloop
    cases hloop
  refine ⟨fun hloop => absurd hloop hnone, fun hloop => absurd hloop hnone, ?_,
    fun _ _ _ _ _ hloop => absurd hloop hnone, fun _ _ _ _ _ hloop => absurd hloop hnone⟩
  intro stopper hstopper
  rw [hstops] at hstopper
  cases hstopper

end Stop

/-! ## Wake -/

/-- What is known of the calls of `Wake` and of the goroutines that wait. -/
structure WakeInv (lag : ℕ) (state : State) : Prop where
  past : ∀ {time : ℤ}, .woke time ∈ state.trace → time ≤ state.clock
  came : ∀ came, state.wake = some came → came ≤ state.clock
  live : state.stops = [] → state.parentDone = false →
    ∀ loop ∈ state.loops, loop.cancelled = false
  answered : state.stops = [] → state.parentDone = false →
    ∀ {newer older : List Mark} {woke : ℤ}, state.trace = newer ++ .woke woke :: older →
      (∃ began, woke ≤ began ∧ .began began ∈ newer) ∨
        ∃ came, state.wake = some came ∧ came ≤ woke
  waits : ∀ loop ∈ state.loops, ∀ since wait, loop.stage = .selecting since wait →
    wait ≤ state.cfg.idleInterval ∧ state.clock ≤ state.due since wait + lag

section Wake

variable {lag : ℕ} {state : State} {index : ℕ} {loop : Goroutine}

theorem due_le (state : State) (since wait : ℤ) : state.due since wait ≤ since + wait := by
  rw [State.due]
  split
  · exact le_rfl
  · exact min_le_left _ _

theorem Intervals.nextInterval_nonneg (cfg : Intervals) (hadWork : Bool) :
    0 ≤ cfg.nextInterval hadWork ∧ cfg.nextInterval hadWork ≤ cfg.idleInterval := by
  have hpositive := cfg.positive
  have hordered := cfg.ordered
  cases hadWork with
  | true => exact ⟨hpositive.le, hordered⟩
  | false => exact ⟨(hpositive.trans_le hordered).le, le_rfl⟩

theorem WakeInv.wake (hinv : WakeInv lag state) : WakeInv lag (state.step .wake) where
  past := by
    intro time hwoke
    rcases List.mem_cons.mp hwoke with hnew | hold
    · exact (Mark.woke.inj hnew).le
    · exact hinv.past hold
  came := by
    intro came hcame
    obtain rfl := Option.some.inj hcame
    cases htoken : state.wake with
    | none => exact le_rfl
    | some came => exact hinv.came came htoken
  live := hinv.live
  answered := by
    intro hstops hparent newer older woke htrace
    rcases List.append_eq_cons_iff.mp htrace.symm with ⟨-, hnew⟩ | ⟨more, rfl, hold⟩
    · have hsame : woke = state.clock := Mark.woke.inj (List.cons.inj hnew).1
      refine .inr ⟨_, rfl, ?_⟩
      cases hcame : state.wake with
      | none => exact hsame.ge
      | some came => exact (hinv.came came hcame).trans hsame.ge
    · rcases hinv.answered hstops hparent hold with ⟨began, hle, hbegan⟩ | ⟨came, hcame, hle⟩
      · exact .inl ⟨began, hle, List.mem_cons_of_mem _ hbegan⟩
      · refine .inr ⟨_, rfl, ?_⟩
        rw [hcame]
        exact hle
  waits := by
    intro loop hloop since wait hstage
    obtain ⟨hidle, hclock⟩ := hinv.waits loop hloop since wait hstage
    refine ⟨hidle, ?_⟩
    cases hcame : state.wake with
    | none =>
        have htimer : state.clock ≤ since + wait + lag := by
          rw [State.due, hcame] at hclock
          exact hclock
        rw [State.step, State.due, hcame]
        dsimp only [Option.getD_none]
        omega
    | some came =>
        rw [State.step, State.due, hcame]
        rw [State.due, hcame] at hclock
        exact hclock

/-- The goroutines change, and a goroutine that waits waited before or has just begun to. -/
theorem WakeInv.reloop (hinv : WakeInv lag state) {after : State} (hcfg : after.cfg = state.cfg)
    (hclock : after.clock = state.clock) (hwake : after.wake = state.wake)
    (htrace : after.trace = state.trace)
    (hlive : after.stops = [] → after.parentDone = false →
      state.stops = [] ∧ state.parentDone = false ∧
        ∀ loop ∈ after.loops, loop.cancelled = false)
    (hloops : ∀ loop ∈ after.loops, ∀ since wait, loop.stage = .selecting since wait →
      (∃ old ∈ state.loops, old.stage = .selecting since wait) ∨
        since = state.clock ∧ 0 ≤ wait ∧ wait ≤ state.cfg.idleInterval) :
    WakeInv lag after where
  past := by
    rw [htrace, hclock]
    exact hinv.past
  came := by
    rw [hwake, hclock]
    exact hinv.came
  live hstops hparent := (hlive hstops hparent).2.2
  answered hstops hparent := by
    obtain ⟨hstops, hparent, -⟩ := hlive hstops hparent
    rw [htrace, hwake]
    exact hinv.answered hstops hparent
  waits := by
    intro loop hloop since wait hstage
    have hdue : after.due since wait = state.due since wait := by
      rw [State.due, State.due, hwake]
    rw [hcfg, hclock, hdue]
    rcases hloops loop hloop since wait hstage with ⟨old, hold, hsame⟩ | ⟨rfl, hwait, hidle⟩
    · exact hinv.waits old hold since wait hsame
    · refine ⟨hidle, ?_⟩
      rw [State.due]
      split <;> omega

theorem WakeInv.setStage (hinv : WakeInv lag state) (hloop : state.loops[index]? = some loop)
    {stage : Stage} (hstage : ∀ since wait, stage = .selecting since wait →
      since = state.clock ∧ 0 ≤ wait ∧ wait ≤ state.cfg.idleInterval) :
    WakeInv lag (state.setStage index loop stage) := by
  refine hinv.reloop rfl rfl rfl rfl ?_ ?_
  · intro hstops hparent
    refine ⟨hstops, hparent, fun moved hmoved => ?_⟩
    rcases List.mem_or_eq_of_mem_set hmoved with hold | rfl
    · exact hinv.live hstops hparent moved hold
    · exact hinv.live hstops hparent loop (List.mem_of_getElem? hloop)
  · intro moved hmoved since wait hselecting
    rcases List.mem_or_eq_of_mem_set hmoved with hold | rfl
    · exact .inl ⟨moved, hold, hselecting⟩
    · exact .inr (hstage since wait hselecting)

/-- A pass that begins answers every call of `Wake` before it. -/
theorem WakeInv.beginPass (hinv : WakeInv lag state) (hloop : state.loops[index]? = some loop)
    (pass : Pass) {wake : Option ℤ} (hwake : wake = state.wake ∨ wake = none) :
    WakeInv lag { state.beginPass index loop pass with wake } := by
  have hset : WakeInv lag (state.setStage index loop
      (.passing { pass with cancelled := loop.cancelled })) :=
    hinv.setStage hloop fun since wait hselecting => by cases hselecting
  refine ⟨?_, ?_, hset.live, ?_, ?_⟩
  · intro time hwoke
    apply hinv.past
    change _ ∈ if loop.cancelled = true then _ else _ at hwoke
    split at hwoke
    · exact hwoke
    · exact (List.mem_cons.mp hwoke).resolve_left Mark.noConfusion
  · intro came hcame
    rcases hwake with rfl | rfl
    · exact hinv.came came hcame
    · cases hcame
  · intro hstops hparent newer older woke htrace
    have hlive : loop.cancelled = false :=
      hinv.live hstops hparent loop (List.mem_of_getElem? hloop)
    change (if loop.cancelled = true then _ else _) = _ at htrace
    rw [hlive, if_neg Bool.false_ne_true] at htrace
    rcases List.append_eq_cons_iff.mp htrace.symm with ⟨-, hnew⟩ | ⟨more, rfl, hold⟩
    · cases (List.cons.inj hnew).1
    · refine .inl ⟨state.clock, hinv.past ?_, List.mem_cons_self⟩
      rw [hold]
      exact List.mem_append_right _ List.mem_cons_self
  · intro other hother since wait hselecting
    obtain ⟨hidle, hclock⟩ := hset.waits other hother since wait hselecting
    refine ⟨hidle, ?_⟩
    rcases hwake with rfl | rfl
    · exact hclock
    · exact hclock.trans (Int.add_le_add_right (due_le _ since wait) _)

theorem WakeInv.moved {after : State} (hinv : WakeInv lag state)
    (hloop : state.loops[index]? = some loop) (hmoved : Moved state index loop after) :
    WakeInv lag after := by
  cases hmoved with
  | began pass hbegins wake hwake => exact hinv.beginPass hloop pass hwake
  | passed pass label hstage hlabel =>
      exact hinv.setStage hloop fun since wait hselecting => by cases hselecting
  | ended pass =>
      refine hinv.setStage hloop fun since wait hselecting => ?_
      obtain ⟨rfl, rfl⟩ := Stage.selecting.inj hselecting
      exact ⟨rfl, state.cfg.nextInterval_nonneg pass.hadWork⟩
  | left => exact hinv.setStage hloop fun since wait hselecting => by cases hselecting

theorem Goroutine.selecting_of_cancel {since wait : ℤ}
    (hstage : loop.cancel.stage = .selecting since wait) :
    loop.stage = .selecting since wait := by
  cases hold : loop.stage with
  | selecting since wait =>
      rw [Goroutine.cancel, hold] at hstage
      exact hstage
  | _ =>
      rw [Goroutine.cancel, hold] at hstage
      cases hstage

theorem WakeInv.stop (hinv : WakeInv lag state) : WakeInv lag state.stop := by
  refine hinv.reloop rfl rfl rfl rfl ?_ ?_
  · intro hstops
    exact absurd hstops (List.append_ne_nil_of_right_ne_nil _ (List.cons_ne_nil _ _))
  · intro loop hloop since wait hselecting
    obtain ⟨index, hindex⟩ := List.mem_iff_getElem?.mp hloop
    rw [State.stop] at hindex
    cases hcancel : state.cancel with
    | none =>
        rw [hcancel] at hindex
        exact .inl ⟨loop, List.mem_of_getElem? hindex, hselecting⟩
    | some current =>
        rw [hcancel] at hindex
        dsimp only at hindex
        rw [List.getElem?_modify] at hindex
        obtain ⟨old, hold, rfl⟩ := Option.map_eq_some_iff.mp hindex
        refine .inl ⟨old, List.mem_of_getElem? hold, ?_⟩
        split at hselecting
        · exact Goroutine.selecting_of_cancel hselecting
        · exact hselecting

theorem WakeInv.start (hinv : WakeInv lag state) : WakeInv lag state.start := by
  rw [State.start]
  cases state.cancel with
  | some current => exact hinv
  | none =>
      refine hinv.reloop rfl rfl rfl rfl ?_ ?_
      · intro hstops hparent
        refine ⟨hstops, hparent, fun loop hloop => ?_⟩
        rcases List.mem_append.mp hloop with hold | hnew
        · exact hinv.live hstops hparent loop hold
        · rw [List.mem_singleton.mp hnew]
          exact hparent
      · intro loop hloop since wait hselecting
        rcases List.mem_append.mp hloop with hold | hnew
        · exact .inl ⟨loop, hold, hselecting⟩
        · rw [List.mem_singleton.mp hnew] at hselecting
          cases hselecting

theorem WakeInv.step {label : Label} (hinv : WakeInv lag state)
    (hallowed : (machine lag).Allowed state label) : WakeInv lag (state.step label) := by
  cases label with
  | tick duration =>
      have hlater : state.clock ≤ state.clock + duration :=
        le_add_of_nonneg_right (Int.natCast_nonneg duration)
      refine ⟨fun hwoke => (hinv.past hwoke).trans hlater,
        fun came hcame => (hinv.came came hcame).trans hlater, hinv.live, hinv.answered, ?_⟩
      intro loop hloop since wait hselecting
      exact ⟨(hinv.waits loop hloop since wait hselecting).1,
        hallowed loop hloop since wait hselecting⟩
  | start => exact hinv.start
  | stop => exact hinv.stop
  | stopReturns index =>
      rw [State.step]
      cases hstopper : state.stops[index]? with
      | none => exact hinv
      | some stopper =>
          refine hinv.reloop rfl rfl rfl rfl ?_ fun loop hloop since wait hselecting =>
            .inl ⟨loop, hloop, hselecting⟩
          intro hstops
          have hempty : state.stops = [] := by simpa using hstops
          rw [hempty] at hstopper
          cases hstopper
  | wake => exact hinv.wake
  | parentDone =>
      refine hinv.reloop rfl rfl rfl rfl (fun _ hparent => by cases hparent) ?_
      intro loop hloop since wait hselecting
      obtain ⟨old, hold, rfl⟩ := List.mem_map.mp hloop
      exact .inl ⟨old, hold, Goroutine.selecting_of_cancel hselecting⟩
  | move index move =>
      obtain ⟨loop, hloop, henabled⟩ := hallowed
      rw [step_move hloop]
      exact hinv.moved hloop (moved_act henabled)

theorem wakeInv (hreach : (machine lag).Reachable state) : WakeInv lag state := by
  refine hreach.invariant (WakeInv lag) ?_ fun _ _ _ hallowed hinv => hinv.step hallowed
  rintro initial ⟨hwake, -, -, hloops, -, htrace⟩
  constructor
  · simp [htrace]
  · simp [hwake]
  · simp [hloops]
  · simp [htrace]
  · simp [hloops]

end Wake

/-! ## Results -/

section Results

variable {lag : ℕ} {state : State}

/-- Before the reconciler is stopped, every call of `Wake` is answered by a pass that began
after it, unless a goroutine is still at an earlier pass or has been free for `lag` at most.
Without any call the next pass is not further away than the idle interval and `lag`. -/
theorem wake_answered (hreach : (machine lag).Reachable state) (hstops : state.stops = [])
    (hparent : state.parentDone = false) :
    (∀ newer woke older, state.trace = newer ++ .woke woke :: older →
      (∃ began, woke ≤ began ∧ .began began ∈ newer) ∨
        ∀ loop ∈ state.loops, ∀ since wait, loop.stage = .selecting since wait →
          state.clock ≤ max since woke + lag) ∧
    ∀ loop ∈ state.loops, ∀ since wait, loop.stage = .selecting since wait →
      state.clock ≤ since + state.cfg.idleInterval + lag := by
  have hinv := wakeInv hreach
  constructor
  · intro newer woke older htrace
    rcases hinv.answered hstops hparent htrace with hanswered | ⟨came, hcame, hle⟩
    · exact .inl hanswered
    · refine .inr fun loop hloop since wait hselecting => ?_
      obtain ⟨-, hclock⟩ := hinv.waits loop hloop since wait hselecting
      rw [State.due, hcame] at hclock
      dsimp only at hclock
      omega
  · intro loop hloop since wait hselecting
    obtain ⟨hidle, hclock⟩ := hinv.waits loop hloop since wait hselecting
    have hdue := due_le state since wait
    omega

/-- Once a call of `Stop` has returned, a pass of a goroutine that was started before it
claims nothing: neither the table nor the pool is changed by what it does next.  Such a
pass exists where `Stop` came between the two halves of `Start`. -/
theorem stop_silences_passes (hreach : (machine lag).Reachable state) {before index : ℕ}
    (hreturned : .returned before ∈ state.stops) (hindex : index < before)
    {loop : Goroutine} (hloop : state.loops[index]? = some loop) {pass : Pass}
    (hpassing : loop.stage = .passing pass) :
    pass.claims = [] ∧ pass.accepted = [] ∧ ∀ env prefersSend,
      (pass.advance env prefersSend).table = pass.table ∧
        (pass.advance env prefersSend).pool = pass.pool := by
  have hidle := (stopInv hreach).silent hreturned hindex hloop hpassing
  refine ⟨hidle.claims, hidle.accepted, fun env prefersSend => ?_⟩
  exact ⟨(hidle.advance env prefersSend).1, (hidle.advance env prefersSend).2.1⟩

end Results

/-! ## Two runs -/

/-- A reconciler that polls every second, and every fifteen when idle. -/
def idleState : State where
  cfg := newIntervals second (15 * second)
  clock := 0
  wake := none
  cancel := none
  parentDone := false
  loops := []
  stops := []
  trace := []

theorem reachable_idleState : (machine 1000).Reachable idleState :=
  .start ⟨rfl, rfl, rfl, rfl, rfl, rfl⟩

/-- A call of `Wake` meets the first pass. -/
def wokenRun : List Label :=
  [.start, .move 0 (.spawn Reconciler.singlePass), .tick 5, .wake]

theorem allowedRun_wokenRun : (machine 1000).AllowedRun idleState wokenRun := by
  refine ⟨trivial, ⟨⟨false, .adding⟩, rfl, rfl, Reconciler.begins_singlePass⟩, ?_, trivial,
    trivial⟩
  intro loop hloop since wait hselecting
  rw [List.mem_singleton.mp hloop] at hselecting
  cases hselecting

theorem wake_answered_wokenRun :
    ((machine 1000).run idleState wokenRun).trace = [.woke 5, .began 0] ∧
      ∀ loop ∈ ((machine 1000).run idleState wokenRun).loops, ∀ since wait,
        loop.stage = .selecting since wait →
          ((machine 1000).run idleState wokenRun).clock ≤ max since 5 + 1000 := by
  refine ⟨rfl, ?_⟩
  have hanswered := wake_answered (reachable_idleState.run allowedRun_wokenRun) rfl rfl
  refine (hanswered.1 [] 5 [.began 0] rfl).resolve_left ?_
  rintro ⟨began, -, hbegan⟩
  cases hbegan

/-- `Stop` comes between the two halves of `Start`, and returns before the goroutine is
started. -/
def overtakenRun : List Label :=
  [.start, .stop, .stopReturns 0, .move 0 (.spawn Reconciler.singlePass)]

theorem allowedRun_overtakenRun : (machine 1000).AllowedRun idleState overtakenRun := by
  refine ⟨trivial, trivial, ⟨⟨1, rfl⟩, ?_⟩,
    ⟨⟨true, .adding⟩, rfl, rfl, Reconciler.begins_singlePass⟩, trivial⟩
  intro loop hloop
  rw [List.mem_singleton.mp hloop]
  rfl

theorem stop_silences_passes_overtakenRun :
    .returned 1 ∈ ((machine 1000).run idleState overtakenRun).stops ∧
      ∃ loop pass, ((machine 1000).run idleState overtakenRun).loops[0]? = some loop ∧
        loop.stage = .passing pass ∧ pass.claims = [] ∧
        (pass.advance (plainEnv 1 minute "") true).table = pass.table := by
  have hreturned : .returned 1 ∈ ((machine 1000).run idleState overtakenRun).stops :=
    List.mem_singleton_self _
  have hsilent := stop_silences_passes (reachable_idleState.run allowedRun_overtakenRun)
    hreturned Nat.zero_lt_one rfl rfl
  exact ⟨hreturned, _, _, rfl, rfl, hsilent.1, (hsilent.2.2 (plainEnv 1 minute "") true).1⟩

end Conduit.ReconcilerLoop
