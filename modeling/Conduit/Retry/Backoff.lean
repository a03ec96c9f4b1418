import Conduit.Core.Binary64
import Conduit.Store.Models

/-!
# Backoff

`retry.Engine.Delay` multiplies the base delay once for each attempt, in floating point,
stops at the longest delay, adds a random share for jitter and stops there again.  What
`rand.Float64` returns is a parameter.  The sum of the delay and its jitter is rounded
twice here, as it is where the compiler does not fuse the operations.
-/

namespace Conduit.Retry

open Models Binary64

structure Config where
  baseDelay : ℤ
  maxDelay : ℤ
  multiplier : Double
  maxAttempts : ℤ
  jitter : Double
  deriving DecidableEq

/-- `NewEngine`.  A multiplier or a jitter that is not a number passes every check. -/
def newEngine (cfg : Config) : Config :=
  let baseDelay := if cfg.baseDelay ≤ 0 then 1000000000 else cfg.baseDelay
  let maxDelay := if cfg.maxDelay ≤ 0 then 30000000000 else cfg.maxDelay
  let jitter := if cfg.jitter.lt (.ofInt 0) then .ofInt 0 else cfg.jitter
  { baseDelay
    maxDelay := if maxDelay < baseDelay then baseDelay else maxDelay
    multiplier := if cfg.multiplier.le (.ofInt 1) then .ofInt 2 else cfg.multiplier
    maxAttempts := cfg.maxAttempts
    jitter := if Double.lt (.ofInt 1) jitter then .ofInt 1 else jitter }

/-- `if delay > max { delay = max }`. -/
def cap (longest delay : Double) : Double :=
  if longest.lt delay then longest else delay

/-- The loop of `Delay`, which breaks where it reaches the longest delay. -/
def grow (multiplier longest : Double) : ℕ → Double → Double
  | 0, delay => delay
  | attempts + 1, delay =>
      if longest.lt (delay.mul multiplier) then longest
      else grow multiplier longest attempts (delay.mul multiplier)

/-- `Delay` before the conversion to a duration. -/
def delayOf (engine : Config) (attempt : ℤ) (random : Double) : Double :=
  let longest := Double.ofInt engine.maxDelay
  let delay := cap longest (grow engine.multiplier longest attempt.toNat (.ofInt engine.baseDelay))
  if (Double.ofInt 0).lt engine.jitter then
    cap longest (delay.add ((delay.mul engine.jitter).mul random))
  else delay

def delay (engine : Config) (attempt : ℤ) (random : Double) : Option ℤ :=
  (delayOf engine attempt random).toInt64

/-! ## The loop -/

section Growth

variable {multiplier : Double} {longest base : ℚ}

/-- A delay the loop may stand at. -/
structure Between (low high value : ℚ) : Prop where
  low : low ≤ value
  high : value ≤ high
  representable : Representable value

theorem exists_cap (hbase : base ≤ longest) (hlongest : Representable longest) {delay : Double}
    (hdelay : delay.AtLeast base) :
    ∃ value, cap (.finite longest) delay = .finite value ∧ Between base longest value := by
  cases delay with
  | nan => cases hdelay
  | negInf => cases hdelay
  | posInf => exact ⟨longest, rfl, hbase, le_rfl, hlongest⟩
  | finite value =>
      by_cases hover : longest < value
      · exact ⟨longest, if_pos (decide_eq_true hover), hbase, le_rfl, hlongest⟩
      · exact ⟨value, if_neg (by simpa using hover), hdelay.1, not_lt.mp hover,
          hdelay.2⟩

/-- A multiplier above one. -/
def Grows (multiplier : Double) : Prop :=
  multiplier = .posInf ∨ ∃ factor, multiplier = .finite factor ∧ 1 < factor

/-- Multiplying does not make a delay shorter. -/
theorem atLeast_mul (hgrows : Grows multiplier) {value : ℚ} (hpos : 0 < value)
    (hvalue : Representable value) : ((Double.finite value).mul multiplier).AtLeast value := by
  rcases hgrows with rfl | ⟨factor, rfl, hfactor⟩
  · rw [Double.mul, Double.signedInf, if_pos hpos]
    trivial
  · exact Double.atLeast_ofRat hvalue hpos.le (le_mul_of_one_le_right hpos.le hfactor.le)

theorem grow_succ (attempts : ℕ) (delay : Double) :
    grow multiplier (.finite longest) (attempts + 1) delay =
      if (Double.finite longest).lt (delay.mul multiplier) then .finite longest
      else grow multiplier (.finite longest) attempts (delay.mul multiplier) := rfl

/-- The loop ends with a delay between the one it began with and the longest. -/
theorem exists_grow (hgrows : Grows multiplier) (hlongest : Representable longest)
    (hpos : 0 < base) (attempts : ℕ) {value : ℚ} (hvalue : Between base longest value) :
    ∃ grown, grow multiplier (.finite longest) attempts (.finite value) = .finite grown ∧
      Between value longest grown := by
  induction attempts generalizing value with
  | zero => exact ⟨value, rfl, le_rfl, hvalue.high, hvalue.representable⟩
  | succ attempts ih =>
      have hmul := atLeast_mul hgrows (hpos.trans_le hvalue.low) hvalue.representable
      obtain ⟨next, hcap, hnext⟩ := exists_cap hvalue.high hlongest hmul
      rw [grow_succ]
      rw [cap] at hcap
      split at hcap
      · rename_i hover
        exact ⟨longest, if_pos hover, hvalue.high, le_rfl, hlongest⟩
      · rename_i hunder
        rw [if_neg hunder, hcap]
        obtain ⟨grown, hgrown, hbetween⟩ :=
          ih ⟨hvalue.low.trans hnext.low, hnext.high, hnext.representable⟩
        exact ⟨grown, hgrown, hnext.low.trans hbetween.low, hbetween.high,
          hbetween.representable⟩

/-- A further attempt does not make the delay shorter. -/
theorem grow_le_succ (hgrows : Grows multiplier) (hlongest : Representable longest)
    (hpos : 0 < base) (attempts : ℕ) {value first second : ℚ}
    (hvalue : Between base longest value)
    (hfirst : grow multiplier (.finite longest) attempts (.finite value) = .finite first)
    (hsecond : grow multiplier (.finite longest) (attempts + 1) (.finite value) = .finite second) :
    first ≤ second := by
  induction attempts generalizing value with
  | zero =>
      obtain ⟨grown, hgrown, hbetween⟩ := exists_grow hgrows hlongest hpos 1 hvalue
      obtain rfl := Double.finite.inj hfirst
      obtain rfl := Double.finite.inj (hgrown.symm.trans hsecond)
      exact hbetween.low
  | succ attempts ih =>
      have hmul := atLeast_mul hgrows (hpos.trans_le hvalue.low) hvalue.representable
      obtain ⟨next, hcap, hnext⟩ := exists_cap hvalue.high hlongest hmul
      rw [grow_succ] at hfirst hsecond
      rw [cap] at hcap
      split at hcap
      · rename_i hover
        rw [if_pos hover] at hfirst hsecond
        exact (Double.finite.inj (hfirst.symm.trans hsecond)).le
      · rename_i hunder
        rw [if_neg hunder, hcap] at hfirst hsecond
        exact ih ⟨hvalue.low.trans hnext.low, hnext.high, hnext.representable⟩ hfirst hsecond

/-- Further attempts do not make the delay shorter. -/
theorem grow_mono (hgrows : Grows multiplier) (hlongest : Representable longest)
    (hpos : 0 < base) (hbase : Between base longest base) {earlier later : ℕ}
    (hle : earlier ≤ later) {first second : ℚ}
    (hfirst : grow multiplier (.finite longest) earlier (.finite base) = .finite first)
    (hsecond : grow multiplier (.finite longest) later (.finite base) = .finite second) :
    first ≤ second := by
  induction later, hle using Nat.le_induction generalizing second with
  | base => exact (Double.finite.inj (hfirst.symm.trans hsecond)).le
  | succ later _ ih =>
      obtain ⟨between, hbetween, _⟩ := exists_grow hgrows hlongest hpos later hbase
      exact (ih hbetween).trans (grow_le_succ hgrows hlongest hpos later hbase hbetween hsecond)

/-- With a whole multiplier the loop is exact until it reaches the longest delay. -/
theorem grow_intCast {factor most : ℤ} (hfactor : 1 < factor) (hmost : most ≤ 2 ^ 53)
    (attempts : ℕ) {value : ℤ} (hpos : 0 < value) (hle : value ≤ most) :
    grow (.finite factor) (.finite most) attempts (.finite value) =
      .finite (min (value * factor ^ attempts) most : ℤ) := by
  induction attempts generalizing value with
  | zero => rw [pow_zero, mul_one, min_eq_left hle, grow]
  | succ attempts ih =>
      have hgrown : 0 < value * factor := mul_pos hpos (zero_lt_one.trans hfactor)
      have hmul : (Double.finite value).mul (.finite factor) = .ofInt (value * factor) := by
        simp [Double.mul, Double.ofInt]
      rw [grow_succ, hmul, pow_succ', ← mul_assoc]
      by_cases hunder : value * factor ≤ most
      · rw [Double.ofInt_of_le hgrown.le (hunder.trans hmost), if_neg]
        · exact ih hgrown hunder
        · exact fun hover => absurd (Int.cast_lt.mp (of_decide_eq_true hover)) (not_lt.mpr hunder)
      · -- The product may round down to the longest delay, where the loop then stays.
        have hpow : value * factor ≤ value * factor * factor ^ attempts :=
          le_mul_of_one_le_right hgrown.le (one_le_pow₀ hfactor.le)
        have hmostPos : (0 : ℚ) < most := Int.cast_pos.mpr (hpos.trans_le hle)
        have hrounded : (Double.ofInt (value * factor)).AtLeast most :=
          Double.atLeast_ofRat (representable_intCast hmost) hmostPos.le
            (Int.cast_le.mpr (not_le.mp hunder).le)
        obtain ⟨next, hcap, hnext⟩ :=
          exists_cap le_rfl (representable_intCast hmost) hrounded
        obtain rfl := le_antisymm hnext.high hnext.low
        rw [min_eq_right ((not_le.mp hunder).le.trans hpow)]
        rw [cap] at hcap
        split at hcap
        · rename_i hover
          exact if_pos hover
        · rename_i hrest
          have hgrows : Grows (.finite factor) :=
            Or.inr ⟨factor, rfl, Int.cast_one.symm.trans_lt (Int.cast_lt.mpr hfactor)⟩
          obtain ⟨last, hlast, hbetween⟩ := exists_grow hgrows
            (representable_intCast hmost) hmostPos attempts hnext
          rw [if_neg hrest, hcap, hlast, le_antisymm hbetween.high hbetween.low]

end Growth

/-! ## The engine -/

section Engine

variable (cfg : Config)

theorem newEngine_baseDelay_pos : 0 < (newEngine cfg).baseDelay := by
  simp only [newEngine]
  split <;> omega

theorem newEngine_baseDelay_le : (newEngine cfg).baseDelay ≤ (newEngine cfg).maxDelay := by
  simp only [newEngine]
  split <;> omega

variable {cfg}

theorem newEngine_grows (hnumber : cfg.multiplier ≠ .nan) :
    Grows (newEngine cfg).multiplier := by
  simp only [newEngine]
  split
  · exact Or.inr ⟨2, Double.ofInt_two, one_lt_two⟩
  · rename_i hover
    rw [Double.ofInt_one] at hover
    cases hmultiplier : cfg.multiplier with
    | nan => exact absurd hmultiplier hnumber
    | negInf => simp [hmultiplier, Double.le] at hover
    | posInf => exact Or.inl rfl
    | finite factor =>
        refine Or.inr ⟨factor, rfl, ?_⟩
        simpa [hmultiplier, Double.le] using hover

/-- A jitter that is used is a share of the delay. -/
theorem newEngine_jitter (hjitter : (Double.ofInt 0).lt (newEngine cfg).jitter = true) :
    ∃ share : ℚ, (newEngine cfg).jitter = .finite share ∧ 0 ≤ share ∧ share ≤ 1 := by
  simp only [newEngine] at hjitter ⊢
  rw [Double.ofInt_zero, Double.ofInt_one] at hjitter ⊢
  generalize (if cfg.jitter.lt (.finite 0) then Double.finite 0 else cfg.jitter) = jitter
    at hjitter ⊢
  by_cases hover : (Double.finite 1).lt jitter = true
  · exact ⟨1, if_pos hover, zero_le_one, le_rfl⟩
  · rw [if_neg hover] at hjitter ⊢
    cases jitter with
    | nan => cases hjitter
    | negInf => cases hjitter
    | posInf => exact absurd rfl hover
    | finite share =>
        have hpos : 0 < share := of_decide_eq_true hjitter
        have hle : share ≤ 1 := not_lt.mp fun hlt => hover (decide_eq_true hlt)
        exact ⟨share, rfl, hpos.le, hle⟩

theorem newEngine_jitter_eq_false (hjitter : (Double.ofInt 0).lt cfg.jitter = false) :
    (Double.ofInt 0).lt (newEngine cfg).jitter = false := by
  simp only [newEngine]
  rw [Double.ofInt_zero, Double.ofInt_one] at *
  have hunder : (Double.finite 0).lt
      (if cfg.jitter.lt (.finite 0) then .finite 0 else cfg.jitter) = false := by
    split
    · simp
    · exact hjitter
  generalize (if cfg.jitter.lt (.finite 0) then Double.finite 0 else cfg.jitter) = jitter
    at hunder ⊢
  split
  · rename_i hover
    cases jitter with
    | nan | negInf => cases hover
    | posInf => cases hunder
    | finite share =>
        rw [Double.lt_finite, decide_eq_false_iff_not] at hunder
        exact absurd (zero_lt_one.trans (of_decide_eq_true hover)) hunder
  · exact hunder

theorem newEngine_multiplier {factor : ℤ} (hfactor : 1 < factor) (hexact : factor ≤ 2 ^ 53)
    (hmultiplier : cfg.multiplier = .ofInt factor) :
    (newEngine cfg).multiplier = .finite factor := by
  have hone : ¬ (factor : ℚ) ≤ 1 := not_le.mpr (by exact_mod_cast hfactor)
  simp only [newEngine]
  rw [hmultiplier, Double.ofInt_one, Double.ofInt_of_le (zero_lt_one.trans hfactor).le hexact,
    if_neg (by simpa using hone)]

/-- The delay before jitter. -/
def steady (engine : Config) (attempt : ℤ) : Double :=
  cap (.ofInt engine.maxDelay)
    (grow engine.multiplier (.ofInt engine.maxDelay) attempt.toNat (.ofInt engine.baseDelay))

variable (hnumber : cfg.multiplier ≠ .nan) (hshort : (newEngine cfg).maxDelay ≤ 2 ^ 53)

theorem ofInt_maxDelay (hshort : (newEngine cfg).maxDelay ≤ 2 ^ 53) :
    Double.ofInt (newEngine cfg).maxDelay = .finite (newEngine cfg).maxDelay :=
  Double.ofInt_of_le
    ((newEngine_baseDelay_pos cfg).le.trans (newEngine_baseDelay_le cfg)) hshort

theorem ofInt_baseDelay (hshort : (newEngine cfg).maxDelay ≤ 2 ^ 53) :
    Double.ofInt (newEngine cfg).baseDelay = .finite (newEngine cfg).baseDelay :=
  Double.ofInt_of_le (newEngine_baseDelay_pos cfg).le
    ((newEngine_baseDelay_le cfg).trans hshort)

theorem between_baseDelay (hshort : (newEngine cfg).maxDelay ≤ 2 ^ 53) :
    Between (newEngine cfg).baseDelay (newEngine cfg).maxDelay (newEngine cfg).baseDelay where
  low := le_rfl
  high := Int.cast_le.mpr (newEngine_baseDelay_le cfg)
  representable := representable_intCast ((newEngine_baseDelay_le cfg).trans hshort)

include hnumber hshort

theorem exists_steady (attempt : ℤ) : ∃ value,
    steady (newEngine cfg) attempt = .finite value ∧
      grow (newEngine cfg).multiplier (.finite (newEngine cfg).maxDelay) attempt.toNat
        (.finite (newEngine cfg).baseDelay) = .finite value ∧
      Between (newEngine cfg).baseDelay (newEngine cfg).maxDelay value := by
  obtain ⟨value, hgrow, hvalue⟩ := exists_grow (newEngine_grows hnumber)
    (representable_intCast hshort) (Int.cast_pos.mpr (newEngine_baseDelay_pos cfg))
    attempt.toNat (between_baseDelay hshort)
  have hcap : cap (.finite (newEngine cfg).maxDelay) (.finite value) = .finite value :=
    if_neg fun hover => absurd (of_decide_eq_true hover) (not_lt.mpr hvalue.high)
  refine ⟨value, ?_, hgrow, hvalue⟩
  rw [steady, ofInt_maxDelay hshort, ofInt_baseDelay hshort, hgrow, hcap]

theorem steady_mono {earlier later : ℤ} (hle : earlier ≤ later) {first second : ℚ}
    (hfirst : steady (newEngine cfg) earlier = .finite first)
    (hsecond : steady (newEngine cfg) later = .finite second) : first ≤ second := by
  obtain ⟨_, heq, hearlier, _⟩ := exists_steady hnumber hshort earlier
  obtain rfl := Double.finite.inj (heq.symm.trans hfirst)
  obtain ⟨_, heq, hlater, _⟩ := exists_steady hnumber hshort later
  obtain rfl := Double.finite.inj (heq.symm.trans hsecond)
  exact grow_mono (newEngine_grows hnumber) (representable_intCast hshort)
    (Int.cast_pos.mpr (newEngine_baseDelay_pos cfg)) (between_baseDelay hshort)
    (Int.toNat_le_toNat hle) hearlier hlater

omit hnumber in
/-- Jitter makes a delay longer, but not beyond the longest. -/
theorem exists_jittered {value : ℚ}
    (hvalue : Between (newEngine cfg).baseDelay (newEngine cfg).maxDelay value)
    (hjitter : (Double.ofInt 0).lt (newEngine cfg).jitter = true) {random : ℚ}
    (hrandom : 0 ≤ random) (hbelow : random ≤ 1) :
    ∃ jittered, cap (.finite (newEngine cfg).maxDelay)
        ((Double.finite value).add
          (((Double.finite value).mul (newEngine cfg).jitter).mul (.finite random))) =
        .finite jittered ∧
      Between value (newEngine cfg).maxDelay jittered := by
  obtain ⟨share, hshare, hnonneg, hone⟩ := newEngine_jitter hjitter
  have hbase : (0 : ℚ) < (newEngine cfg).baseDelay :=
    Int.cast_pos.mpr (newEngine_baseDelay_pos cfg)
  have hpos : 0 ≤ value := hbase.le.trans hvalue.low
  have hfinite : value < 2 ^ 1024 := by
    have hlongest : ((newEngine cfg).maxDelay : ℚ) ≤ 2 ^ 53 := by exact_mod_cast hshort
    have hpow : (2 : ℚ) ^ 53 < 2 ^ 1024 := pow_lt_pow_right₀ one_lt_two (by norm_num)
    exact (hvalue.high.trans hlongest).trans_lt hpow
  -- Each product stays below the delay, so neither rounds to an infinity.
  have hproduct := Double.ofRat_of_le (mul_nonneg hpos hnonneg)
    (mul_le_of_le_one_right hpos hone) hvalue.representable hfinite
  have hextra := nearest_nonneg (mul_nonneg hpos hnonneg)
  have hscaled := Double.ofRat_of_le (mul_nonneg hextra hrandom)
    ((mul_le_of_le_one_right hextra hbelow).trans hproduct.2) hvalue.representable hfinite
  have hsum : (Double.ofRat (value + nearest (nearest (value * share) * random))).AtLeast value :=
    Double.atLeast_ofRat hvalue.representable hpos
      (le_add_of_nonneg_right (nearest_nonneg (mul_nonneg hextra hrandom)))
  rw [hshare]
  simp only [Double.mul, hproduct.1, hscaled.1, Double.add]
  exact exists_cap hvalue.high (representable_intCast hshort) hsum

omit hnumber hshort in
theorem delayOf_eq (engine : Config) (attempt : ℤ) (random : Double) :
    delayOf engine attempt random =
      if (Double.ofInt 0).lt engine.jitter then
        cap (.ofInt engine.maxDelay) ((steady engine attempt).add
          (((steady engine attempt).mul engine.jitter).mul random))
      else steady engine attempt := rfl

theorem exists_delayOf (attempt : ℤ) {random : ℚ} (hrandom : 0 ≤ random)
    (hbelow : random ≤ 1) : ∃ value jittered,
      steady (newEngine cfg) attempt = .finite value ∧
      Between (newEngine cfg).baseDelay (newEngine cfg).maxDelay value ∧
      delayOf (newEngine cfg) attempt (.finite random) = .finite jittered ∧
      Between value (newEngine cfg).maxDelay jittered := by
  obtain ⟨value, hsteady, -, hvalue⟩ := exists_steady hnumber hshort attempt
  rw [delayOf_eq, hsteady, ofInt_maxDelay hshort]
  by_cases hjitter : (Double.ofInt 0).lt (newEngine cfg).jitter = true
  · obtain ⟨jittered, hjittered, hbetween⟩ :=
      exists_jittered hshort hvalue hjitter hrandom hbelow
    exact ⟨value, jittered, rfl, hvalue, by rw [if_pos hjitter, hjittered], hbetween⟩
  · exact ⟨value, value, rfl, hvalue, if_neg hjitter, le_rfl, hvalue.high,
      hvalue.representable⟩

/-- The delays of an attempt without jitter and with it, before their fractions are cut off. -/
theorem exists_delay (attempt : ℤ) {random : ℚ} (hrandom : 0 ≤ random) (hbelow : random ≤ 1) :
    ∃ value jittered,
      steady (newEngine cfg) attempt = .finite value ∧
      delay { newEngine cfg with jitter := .ofInt 0 } attempt (.finite random) = some ⌊value⌋ ∧
      delay (newEngine cfg) attempt (.finite random) = some ⌊jittered⌋ ∧
      (newEngine cfg).baseDelay ≤ value ∧ value ≤ jittered ∧
      jittered ≤ (newEngine cfg).maxDelay := by
  obtain ⟨value, jittered, hsteady, hvalue, hjittered, hlonger⟩ :=
    exists_delayOf hnumber hshort attempt hrandom hbelow
  have hbase : (0 : ℚ) ≤ (newEngine cfg).baseDelay :=
    Int.cast_nonneg (newEngine_baseDelay_pos cfg).le
  have hlongest : ((newEngine cfg).maxDelay : ℚ) ≤ 2 ^ 53 := by exact_mod_cast hshort
  have hplain : delayOf { newEngine cfg with jitter := .ofInt 0 } attempt (.finite random) =
      .finite value := by
    rw [delayOf_eq, Double.ofInt_zero, if_neg (by simp)]
    exact hsteady
  refine ⟨value, jittered, hsteady, ?_, ?_, hvalue.low, hlonger.low, hlonger.high⟩
  · rw [delay, hplain,
      Double.toInt64_of_le (hbase.trans hvalue.low) (hvalue.high.trans hlongest)]
  · rw [delay, hjittered, Double.toInt64_of_le
      ((hbase.trans hvalue.low).trans hlonger.low) (hlonger.high.trans hlongest)]

end Engine

/-! ## Results -/

/-- What `Delay` returns is at least the base delay and at most the longest delay, and at
least what any earlier attempt waits without jitter. -/
theorem delay_between (cfg : Config) (hnumber : cfg.multiplier ≠ .nan)
    (hshort : (newEngine cfg).maxDelay ≤ 2 ^ 53) {earlier attempt : ℤ}
    (hle : earlier ≤ attempt) {random : ℚ} (hrandom : 0 ≤ random) (hbelow : random < 1) :
    ∃ least waited,
      delay { newEngine cfg with jitter := .ofInt 0 } earlier (.finite random) = some least ∧
      delay (newEngine cfg) attempt (.finite random) = some waited ∧
      (newEngine cfg).baseDelay ≤ least ∧ least ≤ waited ∧
      waited ≤ (newEngine cfg).maxDelay := by
  obtain ⟨first, _, hfirst, hleast, -, hbase, -, -⟩ :=
    exists_delay hnumber hshort earlier hrandom hbelow.le
  obtain ⟨value, jittered, hvalue, -, hwaited, -, hlonger, hlongest⟩ :=
    exists_delay hnumber hshort attempt hrandom hbelow.le
  have hmono : first ≤ jittered := (steady_mono hnumber hshort hle hfirst hvalue).trans hlonger
  exact ⟨⌊first⌋, ⌊jittered⌋, hleast, hwaited, Int.le_floor.mpr hbase, Int.floor_mono hmono,
    Int.cast_le.mp ((Int.floor_le jittered).trans hlongest)⟩

/-- The engine `main` builds. -/
def mainEngine : Config where
  baseDelay := 1000000000
  maxDelay := 30000000000
  multiplier := .ofInt 2
  maxAttempts := 5
  jitter := .ofRat (1 / 10)

theorem delay_between_mainEngine :
    ∃ least waited,
      delay { newEngine mainEngine with jitter := .ofInt 0 } 2 (.finite (1 / 2)) = some least ∧
      delay (newEngine mainEngine) 3 (.finite (1 / 2)) = some waited ∧
      1000000000 ≤ least ∧ least ≤ waited ∧ waited ≤ 30000000000 := by
  have hnumber : mainEngine.multiplier ≠ .nan := by
    rw [mainEngine, Double.ofInt_two]
    nofun
  exact delay_between mainEngine hnumber (by decide) (by decide) (by norm_num) (by norm_num)

/-- Without jitter and with a whole multiplier, rounding never shows: `Delay` is the base
delay times the power of the multiplier, up to the longest delay. -/
theorem delay_eq_power (cfg : Config) {factor : ℤ} (hfactor : 1 < factor)
    (hexact : factor ≤ 2 ^ 53) (hmultiplier : cfg.multiplier = .ofInt factor)
    (hjitter : (Double.ofInt 0).lt cfg.jitter = false)
    (hshort : (newEngine cfg).maxDelay ≤ 2 ^ 53) (attempt : ℤ) (random : Double) :
    delay (newEngine cfg) attempt random =
      some (min ((newEngine cfg).baseDelay * factor ^ attempt.toNat)
        (newEngine cfg).maxDelay) := by
  have hmost : ((newEngine cfg).maxDelay : ℚ) ≤ 2 ^ 53 := by exact_mod_cast hshort
  have hbase := newEngine_baseDelay_pos cfg
  have hpower : 0 < (newEngine cfg).baseDelay * factor ^ attempt.toNat :=
    mul_pos hbase (pow_pos (zero_lt_one.trans hfactor) _)
  have hgrow := grow_intCast hfactor hshort attempt.toNat hbase (newEngine_baseDelay_le cfg)
  generalize hwaited : min ((newEngine cfg).baseDelay * factor ^ attempt.toNat)
    (newEngine cfg).maxDelay = waited at hgrow ⊢
  have hle : waited ≤ (newEngine cfg).maxDelay := by
    rw [← hwaited]
    exact min_le_right _ _
  have hnonneg : 0 ≤ waited := by
    rw [← hwaited]
    exact le_min hpower.le (hbase.le.trans (newEngine_baseDelay_le cfg))
  have hcap : cap (.finite (newEngine cfg).maxDelay) (.finite waited) = .finite waited :=
    if_neg fun hover => absurd (Int.cast_lt.mp (of_decide_eq_true hover)) (not_lt.mpr hle)
  rw [delay, delayOf_eq, newEngine_jitter_eq_false hjitter, if_neg Bool.false_ne_true, steady,
    newEngine_multiplier hfactor hexact hmultiplier, ofInt_maxDelay hshort,
    ofInt_baseDelay hshort, hgrow, hcap, Double.toInt64_of_le (Int.cast_nonneg hnonneg)
      ((Int.cast_le.mpr hle).trans hmost), Int.floor_intCast]

theorem delay_eq_power_mainEngine :
    delay (newEngine { mainEngine with jitter := .ofInt 0 }) 3 (.finite 0) = some 8000000000 :=
  delay_eq_power { mainEngine with jitter := .ofInt 0 } one_lt_two (by norm_num) rfl
    (by rw [Double.ofInt_zero, Double.lt_finite]; rfl) (by decide) 3 (.finite 0)

end Conduit.Retry
