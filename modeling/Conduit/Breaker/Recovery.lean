import Conduit.Breaker.Breaker

/-!
# Recovery of the circuit breaker

In half-open state `Allow` admits a probe while fewer than `HalfOpenRequests`
successes have been recorded, and the breaker closes at `SuccessThreshold`
successes.  It can always recover exactly when the second number does not
exceed the first: otherwise the probes stop before enough of them succeeded, and
nothing but a probe can change a half-open breaker.
-/

namespace Conduit.BreakerRecovery

open CircuitBreaker Models Transition

/-- From here on every admitted call succeeds: no failure is recorded, every
outstanding call eventually reports, and `Allow` is tried again and again at
ever later times. -/
structure AllSucceed {cfg : Config} {system : System} (run : (machine cfg).Run system) :
    Prop where
  noFailure : ∀ index now, run.labels index ≠ .recordFailure now
  retried : ∀ index time, ∃ later ≥ index, ∃ now ≥ time, run.labels later = .allow now
  reported : ∀ index, 0 < (run.states index).outstanding →
    ∃ later ≥ index, ∃ now, run.labels later = .recordSuccess now

/-- Whenever no admitted call is outstanding, `Allow` returns true at some later
time, and the breaker closes again if every call succeeds from then on. -/
def NeverWedges (cfg : Config) : Prop :=
  ∀ system, (machine cfg).Reachable system → system.outstanding = 0 →
    (∃ now > system.now, (system.breaker.allow now).1 = true) ∧
    ∀ run : (machine cfg).Run system, AllSucceed run →
      ∃ index, (run.states index).breaker.state = .closed

/-! ## What holds of every reachable breaker -/

structure BreakerInv (cfg : Config) (breaker : Breaker) : Prop where
  normalised : breaker.cfg = normalise cfg
  probing : breaker.state = .halfOpen →
    breaker.successes < (normalise cfg).successThreshold

theorem successThreshold_pos (cfg : Config) : 0 < (normalise cfg).successThreshold :=
  positiveOr_pos (by decide) cfg.successThreshold

theorem halfOpenRequests_pos (cfg : Config) : 0 < (normalise cfg).halfOpenRequests :=
  positiveOr_pos (by decide) cfg.halfOpenRequests

theorem failureThreshold_pos (cfg : Config) : 0 < (normalise cfg).failureThreshold :=
  positiveOr_pos (by decide) cfg.failureThreshold

section Steps

variable {cfg : Config} {breaker : Breaker}

theorem BreakerInv.allow (hinv : BreakerInv cfg breaker) (now : ℤ) :
    BreakerInv cfg (breaker.allow now).2 := by
  rw [Breaker.allow]
  split
  · exact hinv
  · split
    · exact ⟨hinv.normalised, fun _ => successThreshold_pos cfg⟩
    · exact hinv
  · exact hinv

theorem BreakerInv.recordSuccess (hinv : BreakerInv cfg breaker) :
    BreakerInv cfg breaker.recordSuccess := by
  rw [Breaker.recordSuccess]
  split
  · split
    · exact ⟨hinv.normalised, nofun⟩
    · rename_i hbelow
      rw [hinv.normalised] at hbelow
      exact ⟨hinv.normalised, fun _ => not_le.1 hbelow⟩
  · rename_i hclosed
    exact ⟨hinv.normalised, fun hhalf => by simp [hclosed] at hhalf⟩
  · exact hinv

theorem BreakerInv.recordFailure (hinv : BreakerInv cfg breaker) (now : ℤ) :
    BreakerInv cfg (breaker.recordFailure now) := by
  rw [Breaker.recordFailure]
  split
  · rename_i hclosed
    split
    · exact ⟨hinv.normalised, nofun⟩
    · exact ⟨hinv.normalised, fun hhalf => by simp [hclosed] at hhalf⟩
  · exact ⟨hinv.normalised, nofun⟩
  · exact hinv

end Steps

theorem breakerInv {cfg : Config} {system : System}
    (hreach : (machine cfg).Reachable system) : BreakerInv cfg system.breaker := by
  refine hreach.invariant (fun system => BreakerInv cfg system.breaker) ?_ ?_
  · intro initial hinit
    rw [hinit.1]
    exact ⟨rfl, nofun⟩
  · intro before label _ _ hinv
    cases label with
    | allow now => exact hinv.allow now
    | recordSuccess now => exact hinv.recordSuccess
    | recordFailure now => exact hinv.recordFailure now

/-! ## Recovery -/

/-- A breaker that needs no more successes than it admits probes admits a call at
some later time. -/
theorem exists_allow_true {cfg : Config} {breaker : Breaker} (hinv : BreakerInv cfg breaker)
    (hprobes : (normalise cfg).successThreshold ≤ (normalise cfg).halfOpenRequests)
    (time : ℤ) : ∃ now > time, (breaker.allow now).1 = true := by
  cases hstate : breaker.state with
  | closed =>
      exact ⟨time + 1, by omega, by simp [Breaker.allow, hstate]⟩
  | opened =>
      have hlate : breaker.cfg.openTimeout ≤
          max (time + 1) (breaker.openedAt + breaker.cfg.openTimeout) - breaker.openedAt := by
        omega
      exact ⟨max (time + 1) (breaker.openedAt + breaker.cfg.openTimeout), by omega,
        by simp [Breaker.allow, hstate, hlate]⟩
  | halfOpen =>
      have hbelow : breaker.successes < breaker.cfg.halfOpenRequests := by
        rw [hinv.normalised]
        exact lt_of_lt_of_le (hinv.probing hstate) hprobes
      exact ⟨time + 1, by omega, by simp [Breaker.allow, hstate, hbelow]⟩

section FailureFree

variable {cfg : Config} {system : System} {run : (machine cfg).Run system}

/-- An open breaker waits for its timeout, whatever else is reported. -/
theorem opened_or_halfOpen (hsucceed : AllSucceed run)
    (hopen : system.breaker.state = .opened) (index : ℕ) :
    (∃ earlier, (run.states earlier).breaker.state = .halfOpen) ∨
      (run.states index).breaker = system.breaker := by
  induction index with
  | zero =>
      right
      rw [run.zero]
  | succ index ih =>
      rcases ih with hearlier | hsame
      · exact .inl hearlier
      rw [run.next index]
      cases hlabel : run.labels index with
      | allow now =>
          by_cases hlate : system.breaker.cfg.openTimeout ≤ now - system.breaker.openedAt
          · left
            use index + 1
            rw [run.next index, hlabel]
            simp [machine, System.step, hsame, Breaker.allow, hopen, hlate]
          · right
            simp [machine, System.step, hsame, Breaker.allow, hopen, hlate]
      | recordSuccess now =>
          right
          simp [machine, System.step, hsame, Breaker.recordSuccess, hopen]
      | recordFailure now => exact absurd hlabel (hsucceed.noFailure index now)

theorem exists_halfOpen (hsucceed : AllSucceed run)
    (hnever : ∀ index, (run.states index).breaker.state ≠ .closed) :
    ∃ index, (run.states index).breaker.state = .halfOpen := by
  cases hstate : system.breaker.state with
  | closed =>
      have hzero := hnever 0
      rw [run.zero] at hzero
      exact absurd hstate hzero
  | halfOpen => exact ⟨0, by rw [run.zero, hstate]⟩
  | opened =>
      obtain ⟨later, -, now, hlate, hlabel⟩ :=
        hsucceed.retried 0 (system.breaker.openedAt + system.breaker.cfg.openTimeout)
      rcases opened_or_halfOpen hsucceed hstate later with hearlier | hsame
      · exact hearlier
      use later + 1
      have htimeout : system.breaker.cfg.openTimeout ≤ now - system.breaker.openedAt := by
        omega
      rw [run.next later, hlabel]
      simp [machine, System.step, hsame, Breaker.allow, hstate, htimeout]

/-- One step of a half-open breaker that does not close it. -/
theorem halfOpen_next (hsucceed : AllSucceed run) {index : ℕ}
    (hhalf : (run.states index).breaker.state = .halfOpen)
    (hnever : (run.states (index + 1)).breaker.state ≠ .closed) :
    (run.states (index + 1)).breaker.state = .halfOpen ∧
      (run.states index).breaker.successes ≤ (run.states (index + 1)).breaker.successes ∧
      (∀ now, run.labels index = .recordSuccess now →
        (run.states index).breaker.successes <
          (run.states (index + 1)).breaker.successes) := by
  rw [run.next index] at hnever ⊢
  cases hlabel : run.labels index with
  | allow now => simp [machine, System.step, Breaker.allow, hhalf]
  | recordSuccess now =>
      rw [hlabel] at hnever
      by_cases hclose : (run.states index).breaker.cfg.successThreshold ≤
          (run.states index).breaker.successes + 1
      · simp [machine, System.step, Breaker.recordSuccess, hhalf, hclose] at hnever
      · simp [machine, System.step, Breaker.recordSuccess, hhalf, hclose]
  | recordFailure now => exact absurd hlabel (hsucceed.noFailure index now)

theorem halfOpen_of_le (hsucceed : AllSucceed run)
    (hnever : ∀ index, (run.states index).breaker.state ≠ .closed) {index later : ℕ}
    (hhalf : (run.states index).breaker.state = .halfOpen) (hle : index ≤ later) :
    (run.states later).breaker.state = .halfOpen ∧
      (run.states index).breaker.successes ≤ (run.states later).breaker.successes := by
  induction later, hle using Nat.le_induction with
  | base => exact ⟨hhalf, le_rfl⟩
  | succ later _ ih =>
      obtain ⟨hstate, hmono, -⟩ := halfOpen_next hsucceed ih.1 (hnever (later + 1))
      exact ⟨hstate, le_trans ih.2 hmono⟩

/-- While the breaker is half-open another probe is admitted, and its success is
counted. -/
theorem exists_more_successes (hreach : (machine cfg).Reachable system)
    (hprobes : (normalise cfg).successThreshold ≤ (normalise cfg).halfOpenRequests)
    (hsucceed : AllSucceed run)
    (hnever : ∀ index, (run.states index).breaker.state ≠ .closed) {index : ℕ}
    (hhalf : (run.states index).breaker.state = .halfOpen) :
    ∃ later, (run.states later).breaker.state = .halfOpen ∧
      (run.states index).breaker.successes < (run.states later).breaker.successes := by
  obtain ⟨probe, hprobe, now, -, hlabel⟩ := hsucceed.retried index 0
  obtain ⟨hstate, hmono⟩ := halfOpen_of_le hsucceed hnever hhalf hprobe
  have hinv := breakerInv (run.reachable hreach probe)
  have hadmitted : (run.states probe).breaker.successes <
      (run.states probe).breaker.cfg.halfOpenRequests := by
    rw [hinv.normalised]
    exact lt_of_lt_of_le (hinv.probing hstate) hprobes
  have houtstanding : 0 < (run.states (probe + 1)).outstanding := by
    rw [run.next probe, hlabel]
    simp [machine, System.step, Breaker.allow, hstate, hadmitted]
  obtain ⟨report, hreport, time, hsuccess⟩ := hsucceed.reported (probe + 1) houtstanding
  obtain ⟨hstill, hgrown⟩ :=
    halfOpen_of_le hsucceed hnever hstate (le_trans (Nat.le_succ probe) hreport)
  obtain ⟨hafter, -, hcounted⟩ := halfOpen_next hsucceed hstill (hnever (report + 1))
  have hless := hcounted time hsuccess
  exact ⟨report + 1, hafter, by omega⟩

theorem exists_closed (hreach : (machine cfg).Reachable system)
    (hprobes : (normalise cfg).successThreshold ≤ (normalise cfg).halfOpenRequests)
    (hsucceed : AllSucceed run) :
    ∃ index, (run.states index).breaker.state = .closed := by
  by_contra hnone
  have hnever : ∀ index, (run.states index).breaker.state ≠ .closed := by
    intro index hclosed
    exact hnone ⟨index, hclosed⟩
  obtain ⟨first, hfirst⟩ := exists_halfOpen hsucceed hnever
  have hgrow : ∀ count : ℕ, ∃ later, (run.states later).breaker.state = .halfOpen ∧
      (run.states first).breaker.successes + count ≤
        (run.states later).breaker.successes := by
    intro count
    induction count with
    | zero => exact ⟨first, hfirst, by simp⟩
    | succ count ih =>
        obtain ⟨later, hhalf, hcount⟩ := ih
        obtain ⟨next, hnext, hmore⟩ :=
          exists_more_successes hreach hprobes hsucceed hnever hhalf
        exact ⟨next, hnext, by omega⟩
  obtain ⟨later, hhalf, hcount⟩ := hgrow
    ((normalise cfg).successThreshold - (run.states first).breaker.successes).toNat
  have hbelow := (breakerInv (run.reachable hreach later)).probing hhalf
  omega

end FailureFree

/-! ## Wedging -/

/-- Every probe the breaker admits has succeeded, and the breaker is still
half-open. -/
structure Wedged (system : System) : Prop where
  idle : system.outstanding = 0
  halfOpen : system.breaker.state = .halfOpen
  exhausted : system.breaker.cfg.halfOpenRequests ≤ system.breaker.successes

theorem Wedged.allow_false {system : System} (hwedged : Wedged system) (now : ℤ) :
    (system.breaker.allow now).1 = false := by
  simp [Breaker.allow, hwedged.halfOpen, not_lt.2 hwedged.exhausted]

theorem not_neverWedges_of_wedged {cfg : Config} {system : System}
    (hreach : (machine cfg).Reachable system) (hwedged : Wedged system) :
    ¬ NeverWedges cfg := by
  intro hnever
  obtain ⟨now, -, hallow⟩ := (hnever system hreach hwedged.idle).1
  rw [hwedged.allow_false now] at hallow
  exact Bool.false_ne_true hallow

section GuardedCall

variable {cfg : Config} {system : System}

/-- An idle breaker admits a call, which then fails. -/
theorem reachable_failedCall (hreach : (machine cfg).Reachable system)
    (hidle : system.outstanding = 0)
    (hadmitted : (system.breaker.allow system.now).1 = true) :
    (machine cfg).Reachable
      ⟨(system.breaker.allow system.now).2.recordFailure system.now, 0, system.now⟩ := by
  have hallow := Machine.Reachable.next (Label.allow system.now) hreach
    ⟨le_rfl, fun hreports => hreports.elim⟩
  have hfail := Machine.Reachable.next (Label.recordFailure system.now) hallow
    ⟨le_rfl, fun _ => by simp [machine, System.step, hadmitted]⟩
  simpa [machine, System.step, hadmitted, hidle] using hfail

/-- An idle breaker admits a call, which then succeeds. -/
theorem reachable_succeededCall (hreach : (machine cfg).Reachable system)
    (hidle : system.outstanding = 0) {now : ℤ} (hnow : system.now ≤ now)
    (hadmitted : (system.breaker.allow now).1 = true) :
    (machine cfg).Reachable
      ⟨(system.breaker.allow now).2.recordSuccess, 0, now⟩ := by
  have hallow := Machine.Reachable.next (Label.allow now) hreach
    ⟨hnow, fun hreports => hreports.elim⟩
  have hsuccess := Machine.Reachable.next (Label.recordSuccess now) hallow
    ⟨le_rfl, fun _ => by simp [machine, System.step, hadmitted]⟩
  simpa [machine, System.step, hadmitted, hidle] using hsuccess

end GuardedCall

theorem exists_closed_failures (cfg : Config) (count : ℕ)
    (hcount : count < (normalise cfg).failureThreshold) :
    ∃ system, (machine cfg).Reachable system ∧ system.outstanding = 0 ∧
      system.breaker.state = .closed ∧ system.breaker.failures = count := by
  induction count with
  | zero => exact ⟨⟨new cfg, 0, 0⟩, .start ⟨rfl, rfl⟩, rfl, rfl, rfl⟩
  | succ count ih =>
      obtain ⟨system, hreach, hidle, hclosed, hfailures⟩ := ih (by omega)
      have hbelow : ¬ system.breaker.cfg.failureThreshold ≤ (count : ℤ) + 1 := by
        rw [(breakerInv hreach).normalised]
        omega
      have hadmitted : system.breaker.allow system.now = (true, system.breaker) := by
        simp [Breaker.allow, hclosed]
      have hafter := reachable_failedCall hreach hidle (by rw [hadmitted])
      refine ⟨_, hafter, rfl, ?_, ?_⟩
      · simp [hadmitted, Breaker.recordFailure, hclosed, hfailures, hbelow]
      · simp [hadmitted, Breaker.recordFailure, hclosed, hfailures, hbelow]

theorem exists_opened (cfg : Config) :
    ∃ system, (machine cfg).Reachable system ∧ system.outstanding = 0 ∧
      system.breaker.state = .opened := by
  have hpositive := failureThreshold_pos cfg
  obtain ⟨system, hreach, hidle, hclosed, hfailures⟩ :=
    exists_closed_failures cfg ((normalise cfg).failureThreshold - 1).toNat (by omega)
  have hreached : system.breaker.cfg.failureThreshold ≤ system.breaker.failures + 1 := by
    rw [(breakerInv hreach).normalised, hfailures]
    omega
  have hadmitted : system.breaker.allow system.now = (true, system.breaker) := by
    simp [Breaker.allow, hclosed]
  have hafter := reachable_failedCall hreach hidle (by rw [hadmitted])
  exact ⟨_, hafter, rfl, by simp [hadmitted, Breaker.recordFailure, hclosed, hreached]⟩

/-- Probes one after the other, each succeeding, up to the number admitted. -/
theorem exists_probed (cfg : Config) (count : ℕ)
    (hcount : count + 1 ≤ (normalise cfg).halfOpenRequests)
    (hfew : (normalise cfg).halfOpenRequests < (normalise cfg).successThreshold) :
    ∃ system, (machine cfg).Reachable system ∧ system.outstanding = 0 ∧
      system.breaker.state = .halfOpen ∧ system.breaker.successes = count + 1 := by
  induction count with
  | zero =>
      obtain ⟨system, hreach, hidle, hopen⟩ := exists_opened cfg
      have hcfg := (breakerInv hreach).normalised
      obtain ⟨now, hnow, hlate⟩ : ∃ now ≥ system.now,
          (normalise cfg).openTimeout ≤ now - system.breaker.openedAt := by
        exact ⟨max system.now (system.breaker.openedAt + (normalise cfg).openTimeout),
          by omega, by omega⟩
      have hbelow : ¬ (normalise cfg).successThreshold ≤ 1 := by
        have hpositive := halfOpenRequests_pos cfg
        omega
      have hadmitted : (system.breaker.allow now).1 = true := by
        simp [Breaker.allow, hopen, hcfg, hlate]
      refine ⟨_, reachable_succeededCall hreach hidle hnow hadmitted, rfl, ?_, ?_⟩
      · simp [Breaker.allow, hopen, hcfg, hlate, Breaker.recordSuccess, hbelow]
      · simp [Breaker.allow, hopen, hcfg, hlate, Breaker.recordSuccess, hbelow]
  | succ count ih =>
      obtain ⟨system, hreach, hidle, hhalf, hsuccesses⟩ := ih (by omega)
      have hcfg := (breakerInv hreach).normalised
      have hbelow : ¬ (normalise cfg).successThreshold ≤ (count : ℤ) + 1 + 1 := by
        omega
      have hroom : (count : ℤ) + 1 < (normalise cfg).halfOpenRequests := by
        omega
      have hadmitted : system.breaker.allow system.now = (true, system.breaker) := by
        simp [Breaker.allow, hhalf, hcfg, hsuccesses, hroom]
      refine ⟨_, reachable_succeededCall hreach hidle le_rfl (by rw [hadmitted]), rfl, ?_, ?_⟩
      · simp [hadmitted, Breaker.recordSuccess, hhalf, hcfg, hsuccesses, hbelow]
      · simp [hadmitted, Breaker.recordSuccess, hhalf, hcfg, hsuccesses, hbelow]

theorem exists_wedged (cfg : Config)
    (hfew : (normalise cfg).halfOpenRequests < (normalise cfg).successThreshold) :
    ∃ system, (machine cfg).Reachable system ∧ Wedged system := by
  have hpositive := halfOpenRequests_pos cfg
  obtain ⟨system, hreach, hidle, hhalf, hsuccesses⟩ :=
    exists_probed cfg ((normalise cfg).halfOpenRequests - 1).toNat (by omega) hfew
  refine ⟨system, hreach, hidle, hhalf, ?_⟩
  rw [(breakerInv hreach).normalised, hsuccesses]
  omega

/-- The breaker can always recover exactly when it admits as many half-open probes
as it needs successes. -/
theorem neverWedges_iff (cfg : Config) :
    NeverWedges cfg ↔ (new cfg).cfg.successThreshold ≤ (new cfg).cfg.halfOpenRequests := by
  constructor
  · intro hnever
    by_contra hfew
    obtain ⟨system, hreach, hwedged⟩ := exists_wedged cfg (not_le.1 hfew)
    exact not_neverWedges_of_wedged hreach hwedged hnever
  · intro hprobes system hreach _
    constructor
    · exact exists_allow_true (breakerInv hreach) hprobes system.now
    · intro run hsucceed
      exact exists_closed hreach hprobes hsucceed

theorem neverWedges_twoProbes : NeverWedges ⟨5, 2, 30 * second, 2⟩ :=
  (neverWedges_iff _).2 (by decide)

/-! ## The server's configuration -/

/-- `breakerCfg` of `cmd/server`. -/
def breakerCfg : Config := ⟨5, 2, 30 * second, 1⟩

/-- Five failed calls, and a probe that succeeds after the open timeout. -/
def recoveringRun : List Label :=
  [.allow 0, .recordFailure 0, .allow 0, .recordFailure 0, .allow 0, .recordFailure 0,
    .allow 0, .recordFailure 0, .allow 0, .recordFailure 0,
    .allow (30 * second), .recordSuccess (30 * second)]

theorem allowedRun_recoveringRun :
    (machine breakerCfg).AllowedRun ⟨new breakerCfg, 0, 0⟩ recoveringRun := by
  simp only [recoveringRun, Machine.AllowedRun, and_true]
  repeat' apply And.intro
  all_goals first
    | decide
    | exact fun _ => by decide
    | exact fun hreports => hreports.elim

theorem not_forall_neverWedges : ¬ ∀ cfg, NeverWedges cfg := by
  intro hnever
  have hinit : (machine breakerCfg).Reachable ⟨new breakerCfg, 0, 0⟩ := .start ⟨rfl, rfl⟩
  have hreach := hinit.run allowedRun_recoveringRun
  have hwedged : Wedged ((machine breakerCfg).run ⟨new breakerCfg, 0, 0⟩ recoveringRun) :=
    ⟨by decide, by decide, by decide⟩
  exact not_neverWedges_of_wedged hreach hwedged (hnever breakerCfg)

end Conduit.BreakerRecovery
