import Conduit.Core.Transition
import Conduit.Store.Models

/-!
# The circuit breaker

`circuitbreaker.Breaker` with its clock made explicit, and the calls it guards:
a caller that `Allow` admits later reports its outcome with `RecordSuccess` or
`RecordFailure`.  Any number of admitted calls may be outstanding at once.
-/

namespace Conduit.CircuitBreaker

open Models Transition

inductive State
  | closed
  | opened
  | halfOpen
  deriving DecidableEq

structure Config where
  failureThreshold : ℤ
  successThreshold : ℤ
  openTimeout : ℤ
  halfOpenRequests : ℤ
  deriving DecidableEq

structure Breaker where
  cfg : Config
  state : State
  failures : ℤ
  successes : ℤ
  openedAt : ℤ
  deriving DecidableEq

/-- A field that is not positive takes its default. -/
def positiveOr (default value : ℤ) : ℤ :=
  if value ≤ 0 then default else value

theorem positiveOr_pos {default : ℤ} (hdefault : 0 < default) (value : ℤ) :
    0 < positiveOr default value := by
  rw [positiveOr]
  split
  · exact hdefault
  · omega

/-- The configuration `New` keeps. -/
def normalise (cfg : Config) : Config where
  failureThreshold := positiveOr 5 cfg.failureThreshold
  successThreshold := positiveOr 2 cfg.successThreshold
  openTimeout := positiveOr (60 * second) cfg.openTimeout
  halfOpenRequests := positiveOr 1 cfg.halfOpenRequests

def new (cfg : Config) : Breaker where
  cfg := normalise cfg
  state := .closed
  failures := 0
  successes := 0
  openedAt := zeroTime

namespace Breaker

def allow (breaker : Breaker) (now : ℤ) : Bool × Breaker :=
  match breaker.state with
  | .closed => (true, breaker)
  | .opened =>
      if breaker.cfg.openTimeout ≤ now - breaker.openedAt then
        (true, { breaker with state := .halfOpen, failures := 0, successes := 0 })
      else (false, breaker)
  | .halfOpen => (breaker.successes < breaker.cfg.halfOpenRequests, breaker)

def recordSuccess (breaker : Breaker) : Breaker :=
  match breaker.state with
  | .halfOpen =>
      if breaker.cfg.successThreshold ≤ breaker.successes + 1 then
        { breaker with state := .closed, failures := 0, successes := 0 }
      else { breaker with successes := breaker.successes + 1 }
  | .closed => { breaker with failures := 0 }
  | .opened => breaker

def recordFailure (breaker : Breaker) (now : ℤ) : Breaker :=
  match breaker.state with
  | .closed =>
      if breaker.cfg.failureThreshold ≤ breaker.failures + 1 then
        { breaker with
          failures := breaker.failures + 1, state := .opened, openedAt := now }
      else { breaker with failures := breaker.failures + 1 }
  | .halfOpen =>
      { breaker with state := .opened, openedAt := now, failures := 0, successes := 0 }
  | .opened => breaker

end Breaker

/-! ## Guarded calls -/

/-- A breaker, the number of admitted calls that have not reported yet, and the
time of the last call. -/
structure System where
  breaker : Breaker
  outstanding : ℕ
  now : ℤ

inductive Label
  | allow (now : ℤ)
  | recordSuccess (now : ℤ)
  | recordFailure (now : ℤ)

def Label.time : Label → ℤ
  | .allow now | .recordSuccess now | .recordFailure now => now

/-- Outcomes are reported for admitted calls only. -/
def Label.Reports : Label → Prop
  | .allow _ => False
  | .recordSuccess _ | .recordFailure _ => True

def System.step (system : System) : Label → System
  | .allow now =>
      let answer := system.breaker.allow now
      { breaker := answer.2
        outstanding := if answer.1 then system.outstanding + 1 else system.outstanding
        now }
  | .recordSuccess now =>
      { breaker := system.breaker.recordSuccess
        outstanding := system.outstanding - 1
        now }
  | .recordFailure now =>
      { breaker := system.breaker.recordFailure now
        outstanding := system.outstanding - 1
        now }

/-- Calls come at non-decreasing times and report at most once each. -/
def machine (cfg : Config) : Machine System Label where
  Init system := system.breaker = new cfg ∧ system.outstanding = 0
  Allowed system label :=
    system.now ≤ label.time ∧ (label.Reports → 0 < system.outstanding)
  step := System.step

end Conduit.CircuitBreaker
