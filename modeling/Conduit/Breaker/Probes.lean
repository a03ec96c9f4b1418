import Conduit.Breaker.Recovery

/-!
# Probes of a half-open circuit breaker

`HalfOpenRequests` is to bound the calls that `Allow` admits while the breaker is
half-open, the call that made it half-open among them.  What the breaker counts is the
successes reported to it, so the bound is kept exactly as long as nobody asks again before
the probes that are out have reported.
-/

namespace Conduit.BreakerProbes

open BreakerRecovery CircuitBreaker Models Transition

/-- A breaker with the number of calls of `Allow` that returned true since it last became
half-open. -/
structure Probing where
  system : System
  admitted : ℕ

def Probing.step (probing : Probing) (label : Label) : Probing where
  system := probing.system.step label
  admitted :=
    if (probing.system.step label).breaker.state = .halfOpen then
      match label with
      | .allow now =>
          if (probing.system.breaker.allow now).1 then probing.admitted + 1
          else probing.admitted
      | .recordSuccess _ | .recordFailure _ => probing.admitted
    else 0

/-- Any calls, in any order and at any times. -/
def machine (cfg : Config) : Machine Probing Label where
  Init probing := probing.system.breaker = new cfg ∧ probing.admitted = 0
  Allowed _ _ := True
  step := Probing.step

def start (cfg : Config) (now : ℤ) : Probing := ⟨⟨new cfg, 0, now⟩, 0⟩

/-- No more probes have been admitted than the configuration says. -/
def Bounded (probing : Probing) : Prop :=
  probing.admitted ≤ probing.system.breaker.cfg.halfOpenRequests

/-- Who asks a half-open breaker that has admitted its probes finds that as many successes
have been recorded. -/
def ProbesReported (probing : Probing) : Label → Prop
  | .allow _ =>
      probing.system.breaker.state = .halfOpen →
        probing.system.breaker.cfg.halfOpenRequests ≤ probing.admitted →
          probing.system.breaker.cfg.halfOpenRequests ≤ probing.system.breaker.successes
  | .recordSuccess _ | .recordFailure _ => True

structure ProbingInv (cfg : Config) (probing : Probing) : Prop where
  breaker : BreakerInv cfg probing.system.breaker
  settled : probing.system.breaker.state ≠ .halfOpen → probing.admitted = 0

theorem ProbingInv.step {cfg : Config} {probing : Probing} (hinv : ProbingInv cfg probing)
    (label : Label) : ProbingInv cfg (probing.step label) := by
  constructor
  · cases label with
    | allow now => exact hinv.breaker.allow now
    | recordSuccess now => exact hinv.breaker.recordSuccess
    | recordFailure now => exact hinv.breaker.recordFailure now
  · intro hstate
    exact if_neg hstate

theorem probingInv {cfg : Config} {probing : Probing}
    (hreach : (machine cfg).Reachable probing) : ProbingInv cfg probing := by
  apply hreach.invariant (ProbingInv cfg)
  · intro initial hinit
    constructor
    · rw [hinit.1]
      exact ⟨rfl, fun hhalf => State.noConfusion hhalf⟩
    · intro _
      exact hinit.2
  · intro before label _ _ hinv
    exact hinv.step label

theorem ProbingInv.bounded_iff {cfg : Config} {probing : Probing}
    (hinv : ProbingInv cfg probing) :
    Bounded probing ↔ (probing.admitted : ℤ) ≤ (normalise cfg).halfOpenRequests := by
  rw [Bounded, hinv.breaker.normalised]

/-- Who is admitted to a half-open breaker is counted. -/
theorem admitted_allow {probing : Probing} (hhalf : probing.system.breaker.state = .halfOpen)
    (now : ℤ) :
    (probing.step (.allow now)).admitted =
      if probing.system.breaker.successes < probing.system.breaker.cfg.halfOpenRequests then
        probing.admitted + 1
      else probing.admitted := by
  simp [Probing.step, System.step, Breaker.allow, hhalf]

/-- The call that makes the breaker half-open is its first probe. -/
theorem admitted_allow_le {cfg : Config} {probing : Probing} (hinv : ProbingInv cfg probing)
    (hhalf : probing.system.breaker.state ≠ .halfOpen) (now : ℤ) :
    (probing.step (.allow now)).admitted ≤ 1 := by
  have hadmitted : probing.admitted = 0 := hinv.settled hhalf
  rw [Probing.step, hadmitted]
  dsimp only
  split
  · split <;> omega
  · omega

theorem admitted_record_le (probing : Probing) (label : Label) (hreports : label.Reports) :
    (probing.step label).admitted ≤ probing.admitted := by
  cases label with
  | allow now => exact hreports.elim
  | recordSuccess now | recordFailure now =>
      rw [Probing.step]
      dsimp only
      split
      · exact le_rfl
      · exact Nat.zero_le _

/-- One call keeps the bound exactly if it is not an `Allow` that comes too early. -/
theorem bounded_step {cfg : Config} {probing : Probing} (hinv : ProbingInv cfg probing)
    (hbounded : Bounded probing) (label : Label) :
    Bounded (probing.step label) ↔ ProbesReported probing label := by
  have hpos := halfOpenRequests_pos cfg
  rw [(hinv.step label).bounded_iff]
  rw [hinv.bounded_iff] at hbounded
  cases label with
  | allow now =>
      rw [ProbesReported, hinv.breaker.normalised]
      by_cases hhalf : probing.system.breaker.state = .halfOpen
      · rw [admitted_allow hhalf, hinv.breaker.normalised]
        split
        · push_cast
          constructor
          · intro hbelow _ hfull
            omega
          · intro hreported
            by_contra hfull
            have := hreported hhalf (by omega)
            omega
        · rename_i hreported
          exact iff_of_true hbounded fun _ _ => not_lt.mp hreported
      · have hfirst := admitted_allow_le hinv hhalf now
        exact iff_of_true (by omega) fun hhalf' => absurd hhalf' hhalf
  | recordSuccess now | recordFailure now =>
      refine iff_of_true ?_ trivial
      refine (Int.ofNat_le.mpr (admitted_record_le probing _ ?_)).trans hbounded
      trivial

/-- Over any sequence of calls, a half-open breaker never admits more than
`HalfOpenRequests` probes exactly when nobody asks again before they have reported. -/
theorem bounded_iff_probesReported (cfg : Config) (now : ℤ) (labels : List Label) :
    (machine cfg).Always Bounded (start cfg now) labels ↔
      ((machine cfg).restrict ProbesReported).AllowedRun (start cfg now) labels := by
  have hstart : (machine cfg).Reachable (start cfg now) := .start ⟨rfl, rfl⟩
  have hallowed : ∀ (state : Probing) (labels : List Label),
      (machine cfg).AllowedRun state labels := by
    intro state labels
    induction labels generalizing state with
    | nil => trivial
    | cons label labels ih => exact ⟨trivial, ih _⟩
  apply Machine.always_iff_restrict Bounded _ hstart _ (hallowed _ labels)
  · intro before label hreach _ hbounded
    exact bounded_step (probingInv hreach) hbounded label
  · rw [(probingInv hstart).bounded_iff]
    exact (halfOpenRequests_pos cfg).le

/-- Two probes, the second one asked for after the first has reported. -/
theorem bounded_twoProbes :
    (machine ⟨1, 2, 30 * second, 2⟩).Always Bounded (start ⟨1, 2, 30 * second, 2⟩ 0)
      [.allow 0, .recordFailure 0, .allow (30 * second), .recordSuccess (31 * second),
        .allow (31 * second)] := by
  rw [bounded_iff_probesReported]
  refine ⟨⟨trivial, ?_⟩, ⟨trivial, trivial⟩, ⟨trivial, ?_⟩, ⟨trivial, trivial⟩,
    ⟨trivial, ?_⟩, trivial⟩
  all_goals
    rw [ProbesReported]
    decide

/-! ## The breaker of the server -/

/-- Five calls fail, and once the timeout is over two callers ask. -/
def impatientRun : List Label :=
  [.allow 0, .recordFailure 0, .allow 0, .recordFailure 0, .allow 0, .recordFailure 0,
    .allow 0, .recordFailure 0, .allow 0, .recordFailure 0,
    .allow (30 * second), .allow (30 * second)]

theorem not_forall_bounded :
    ¬ ∀ (cfg : Config) (now : ℤ) (labels : List Label),
      (machine cfg).Always Bounded (start cfg now) labels := by
  intro hbounded
  have hlast := (hbounded breakerCfg 0 impatientRun).last
  revert hlast
  rw [Bounded]
  decide

end Conduit.BreakerProbes
