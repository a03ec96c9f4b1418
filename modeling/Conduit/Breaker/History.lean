import Conduit.Breaker.Recovery

/-!
# The circuit breaker and its history

The breaker keeps two counters and a time.  What it is to do is said here without them, in
terms of the calls it has received since it last changed its state: a run of failures opens
it, the passing of time makes it half-open, and then a failure opens it again and enough
successes close it.
-/

namespace Conduit.BreakerHistory

open BreakerRecovery CircuitBreaker Models Transition

/-! ## The specification -/

/-- What a call reports: a success, a failure or nothing. -/
def outcome : Label → Option Bool
  | .allow _ => none
  | .recordSuccess _ => some true
  | .recordFailure _ => some false

/-- Failures reported after the last success; the newest call comes first. -/
def failuresInRow (calls : List Label) : ℕ :=
  ((calls.filterMap outcome).takeWhile fun success => !success).length

def successesIn (calls : List Label) : ℕ :=
  (calls.filterMap outcome).count true

/-- A state, the time of the call that led to it and the calls received since, the newest
one first. -/
structure Phase where
  state : State
  entered : ℤ
  since : List Label

namespace Phase

variable (cfg : Config) (phase : Phase)

/-- The state after one more call. -/
def next (call : Label) : State :=
  match phase.state, call with
  | .closed, .recordFailure _ =>
      if failuresInRow (call :: phase.since) = cfg.failureThreshold then .opened else .closed
  | .opened, .allow now =>
      if phase.entered + cfg.openTimeout ≤ now then .halfOpen else .opened
  | .halfOpen, .recordFailure _ => .opened
  | .halfOpen, .recordSuccess _ =>
      if successesIn (call :: phase.since) = cfg.successThreshold then .closed else .halfOpen
  | state, _ => state

def after (call : Label) : Phase :=
  if phase.next cfg call = phase.state then { phase with since := call :: phase.since }
  else ⟨phase.next cfg call, call.time, []⟩

/-- What `Allow` is to answer. -/
def admits (now : ℤ) : Prop :=
  match phase.state with
  | .closed => True
  | .opened => phase.entered + cfg.openTimeout ≤ now
  | .halfOpen => successesIn phase.since < cfg.halfOpenRequests

end Phase

/-- The phase a sequence of calls leads to, the newest call first. -/
def phase (cfg : Config) : List Label → Phase
  | [] => ⟨.closed, zeroTime, []⟩
  | call :: earlier => (phase cfg earlier).after cfg call

/-! ## The counters -/

/-- In each state the field that matters there agrees with the calls since it began. -/
def Counts (cfg : Config) (breaker : Breaker) (phase : Phase) : Prop :=
  match phase.state with
  | .closed => breaker.failures = failuresInRow phase.since ∧
      breaker.failures < cfg.failureThreshold
  | .opened => breaker.openedAt = phase.entered
  | .halfOpen => breaker.successes = successesIn phase.since ∧
      breaker.successes < cfg.successThreshold

structure Agrees (cfg : Config) (breaker : Breaker) (phase : Phase) : Prop where
  config : breaker.cfg = cfg
  state : breaker.state = phase.state
  counts : Counts cfg breaker phase

theorem agrees_new (cfg : Config) :
    Agrees (normalise cfg) (new cfg) (phase (normalise cfg) []) where
  config := rfl
  state := rfl
  counts := ⟨rfl, failureThreshold_pos cfg⟩

section Step

variable {cfg : Config} {breaker : Breaker} {phase : Phase}

theorem Phase.after_of_eq {call : Label} (hsame : phase.next cfg call = phase.state) :
    phase.after cfg call = { phase with since := call :: phase.since } :=
  if_pos hsame

theorem Phase.after_of_ne {call : Label} (hchange : phase.next cfg call ≠ phase.state) :
    phase.after cfg call = ⟨phase.next cfg call, call.time, []⟩ :=
  if_neg hchange

/-- A call that changes nothing in the breaker and reports nothing that counts. -/
theorem Agrees.same (hagrees : Agrees cfg breaker phase) {call : Label}
    (hsame : phase.next cfg call = phase.state)
    (hcall : outcome call = none ∨ phase.state = .opened) :
    Agrees cfg breaker (phase.after cfg call) := by
  rw [Phase.after_of_eq hsame]
  refine ⟨hagrees.config, hagrees.state, ?_⟩
  have hcounts := hagrees.counts
  unfold Counts at hcounts ⊢
  rcases hcall with hcall | hopened
  · simpa only [failuresInRow, successesIn, List.filterMap_cons_none hcall] using hcounts
  · rw [hopened] at hcounts ⊢
    exact hcounts

theorem Agrees.allow (hagrees : Agrees cfg breaker phase) (hthreshold : 0 < cfg.successThreshold)
    (now : ℤ) : Agrees cfg (breaker.allow now).2 (phase.after cfg (.allow now)) := by
  have hcounts := hagrees.counts
  unfold Breaker.allow
  rw [hagrees.state, hagrees.config]
  split
  · rename_i hclosed
    exact hagrees.same (by simp [Phase.next, hclosed]) (.inl rfl)
  · rename_i hopened
    rw [Counts, hopened] at hcounts
    have hlate : cfg.openTimeout ≤ now - breaker.openedAt ↔
        phase.entered + cfg.openTimeout ≤ now := by
      rw [hcounts]
      omega
    split
    · rename_i hdue
      rw [hlate] at hdue
      have hnext : phase.next cfg (.allow now) = .halfOpen := by
        simp [Phase.next, hopened, hdue]
      rw [Phase.after_of_ne (by rw [hnext, hopened]; decide), hnext]
      exact ⟨rfl, rfl, rfl, hthreshold⟩
    · rename_i hearly
      rw [hlate] at hearly
      exact hagrees.same (by simp [Phase.next, hopened, hearly]) (.inl rfl)
  · rename_i hhalf
    exact hagrees.same (by simp [Phase.next, hhalf]) (.inl rfl)

theorem Agrees.recordSuccess (hagrees : Agrees cfg breaker phase)
    (hthreshold : 0 < cfg.failureThreshold) (now : ℤ) :
    Agrees cfg breaker.recordSuccess (phase.after cfg (.recordSuccess now)) := by
  have hcounts := hagrees.counts
  unfold Breaker.recordSuccess
  rw [hagrees.state, hagrees.config]
  split
  · rename_i hhalf
    rw [Counts, hhalf] at hcounts
    have hcount : successesIn (.recordSuccess now :: phase.since) =
        successesIn phase.since + 1 := by
      simp [successesIn, outcome]
    split
    · rename_i henough
      have hnext : phase.next cfg (.recordSuccess now) = .closed := by
        simp only [Phase.next, hhalf]
        rw [if_pos (by omega)]
      rw [Phase.after_of_ne (by rw [hnext, hhalf]; decide), hnext]
      exact ⟨rfl, rfl, rfl, hthreshold⟩
    · rename_i hfew
      have hnext : phase.next cfg (.recordSuccess now) = phase.state := by
        simp only [Phase.next, hhalf]
        rw [if_neg (by omega)]
      rw [Phase.after_of_eq hnext]
      refine ⟨rfl, rfl, ?_⟩
      simp only [Counts, hhalf]
      omega
  · rename_i hclosed
    rw [Phase.after_of_eq (by simp [Phase.next, hclosed])]
    refine ⟨rfl, rfl, ?_⟩
    simp only [Counts, hclosed]
    exact ⟨rfl, hthreshold⟩
  · rename_i hopened
    exact hagrees.same (by simp [Phase.next, hopened]) (.inr hopened)

theorem Agrees.recordFailure (hagrees : Agrees cfg breaker phase) (now : ℤ) :
    Agrees cfg (breaker.recordFailure now) (phase.after cfg (.recordFailure now)) := by
  have hcounts := hagrees.counts
  unfold Breaker.recordFailure
  rw [hagrees.state, hagrees.config]
  split
  · rename_i hclosed
    rw [Counts, hclosed] at hcounts
    have hcount : failuresInRow (.recordFailure now :: phase.since) =
        failuresInRow phase.since + 1 := by
      simp [failuresInRow, outcome]
    split
    · rename_i henough
      have hnext : phase.next cfg (.recordFailure now) = .opened := by
        simp only [Phase.next, hclosed]
        rw [if_pos (by omega)]
      rw [Phase.after_of_ne (by rw [hnext, hclosed]; decide), hnext]
      exact ⟨rfl, rfl, rfl⟩
    · rename_i hfew
      have hnext : phase.next cfg (.recordFailure now) = phase.state := by
        simp only [Phase.next, hclosed]
        rw [if_neg (by omega)]
      rw [Phase.after_of_eq hnext]
      refine ⟨rfl, rfl, ?_⟩
      simp only [Counts, hclosed]
      omega
  · rename_i hhalf
    have hnext : phase.next cfg (.recordFailure now) = .opened := by
      simp [Phase.next, hhalf]
    rw [Phase.after_of_ne (by rw [hnext, hhalf]; decide), hnext]
    exact ⟨rfl, rfl, rfl⟩
  · rename_i hopened
    exact hagrees.same (by simp [Phase.next, hopened]) (.inr hopened)

theorem Agrees.allow_iff (hagrees : Agrees cfg breaker phase) (now : ℤ) :
    (breaker.allow now).1 = true ↔ phase.admits cfg now := by
  have hcounts := hagrees.counts
  unfold Breaker.allow Phase.admits
  rw [hagrees.state, hagrees.config]
  cases hstate : phase.state with
  | closed => exact iff_of_true rfl trivial
  | opened =>
      rw [Counts, hstate] at hcounts
      have hopened : breaker.openedAt = phase.entered := hcounts
      by_cases hlate : cfg.openTimeout ≤ now - breaker.openedAt
      · simp only [if_pos hlate, true_iff]
        omega
      · simp only [if_neg hlate, Bool.false_eq_true, false_iff]
        omega
  | halfOpen =>
      rw [Counts, hstate] at hcounts
      have hsuccesses : breaker.successes = successesIn phase.since := hcounts.1
      show decide (breaker.successes < cfg.halfOpenRequests) = true ↔
        (successesIn phase.since : ℤ) < cfg.halfOpenRequests
      rw [decide_eq_true_eq, hsuccesses]

end Step

/-- The breaker after a sequence of calls. -/
def breakerAfter (cfg : Config) (calls : List Label) : Breaker :=
  ((machine cfg).run ⟨new cfg, 0, zeroTime⟩ calls).breaker

theorem agrees_breakerAfter (cfg : Config) (calls : List Label) :
    Agrees (normalise cfg) (breakerAfter cfg calls)
      (phase (normalise cfg) calls.reverse) := by
  -- The specification takes the newest call off first, so the induction does too.
  induction calls using List.reverseRecOn with
  | nil => exact agrees_new cfg
  | append_singleton calls call ih =>
      rw [List.reverse_concat, phase, breakerAfter, Machine.run, List.foldl_concat]
      cases call with
      | allow now => exact ih.allow (successThreshold_pos cfg) now
      | recordSuccess now => exact ih.recordSuccess (failureThreshold_pos cfg) now
      | recordFailure now => exact ih.recordFailure now

/-- After any calls the breaker is in the state its history says, opened at the time its
history says, and `Allow` answers accordingly. -/
theorem breaker_eq_history (cfg : Config) (calls : List Label) :
    (breakerAfter cfg calls).state = (phase (normalise cfg) calls.reverse).state ∧
      ((breakerAfter cfg calls).state = .opened →
        (breakerAfter cfg calls).openedAt = (phase (normalise cfg) calls.reverse).entered) ∧
      ∀ now, ((breakerAfter cfg calls).allow now).1 = true ↔
        (phase (normalise cfg) calls.reverse).admits (normalise cfg) now := by
  have hagrees := agrees_breakerAfter cfg calls
  refine ⟨hagrees.state, ?_, hagrees.allow_iff⟩
  intro hopened
  have hcounts := hagrees.counts
  rw [Counts, ← hagrees.state, hopened] at hcounts
  exact hcounts

end Conduit.BreakerHistory
