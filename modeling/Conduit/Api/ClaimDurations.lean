import Conduit.Api.Handlers
import Conduit.Jobs.Machine

/-!
# The durations of a claim

A worker asks for a lease and a wait in whole seconds.  The handler turns both into
nanoseconds in an `int64` before anything is compared, and only then are they clamped to what
the server allows.  A request of more than some 292 years wraps around, and what the clamp
sees may be a short positive duration, or a negative one.
-/

namespace Conduit.Api

open Models JobService JobStore JobCalls

/-- The lease as documented: what was asked for, at most the server's, and the server's when
nothing was asked for. -/
def grantedLease (lease leaseSeconds : ℤ) : ℤ :=
  if leaseSeconds = 0 then lease else min (leaseSeconds * second) lease

def grantedWait (maxClaimWait waitSeconds : ℤ) : ℤ :=
  min (waitSeconds * second) maxClaimWait

/-- The call of a claim and its deadline are those of the documented lease and wait. -/
structure ExactDurations (context : Context) (env : Env) (body : ClaimRequest) : Prop where
  lease : body.call context =
    .claimNextJob (grantedLease context.server.lease body.leaseSeconds)
      { tenant := context.tenant, queues := body.queues, names := body.names }
  wait : claimDeadline context env body =
    env.now + grantedWait context.server.maxClaimWait body.waitSeconds

/-- The product fits an `int64`, or what it wraps to is clamped to the same value. -/
structure Unwrapped (context : Context) (body : ClaimRequest) : Prop where
  lease : body.leaseSeconds * second < 2 ^ 63 ∨ seconds body.leaseSeconds ≤ 0 ∨
    context.server.lease ≤ seconds body.leaseSeconds
  wait : body.waitSeconds * second < 2 ^ 63 ∨
    context.server.maxClaimWait ≤ seconds body.waitSeconds

section Durations

variable {lease maxClaimWait count : ℤ}

theorem seconds_eq (hcount : 0 ≤ count) (hfits : count * second < 2 ^ 63) :
    seconds count = count * second := by
  have hnonneg : 0 ≤ count * second := mul_nonneg hcount (by decide)
  rw [seconds, wrap64]
  omega

theorem clampLease_eq_iff (hlease : 0 < lease) (hmax : lease < 2 ^ 63) (hcount : 0 ≤ count) :
    clampLease lease (seconds count) = grantedLease lease count ↔
      count * second < 2 ^ 63 ∨ seconds count ≤ 0 ∨ lease ≤ seconds count := by
  rw [clampLease, grantedLease]
  by_cases hfits : count * second < 2 ^ 63
  · rw [seconds_eq hcount hfits]
    refine iff_of_true ?_ (.inl hfits)
    by_cases hzero : count = 0
    · rw [if_pos hzero, if_pos (.inl (by rw [hzero, zero_mul]))]
    · have hpositive : 0 < count * second := mul_pos (by omega) (by decide)
      rw [if_neg hzero]
      by_cases hlong : lease < count * second
      · rw [if_pos (.inr hlong), min_eq_right hlong.le]
      · rw [if_neg (by omega), min_eq_left (not_lt.mp hlong)]
  · have hzero : count ≠ 0 := by
      rintro rfl
      exact hfits (by decide)
    have hbound : min (count * second) lease = lease := min_eq_right (by omega)
    rw [if_neg hzero, hbound]
    split <;> omega

theorem min_seconds_eq_iff (hmax : maxClaimWait < 2 ^ 63) (hcount : 0 ≤ count) :
    min (seconds count) maxClaimWait = grantedWait maxClaimWait count ↔
      count * second < 2 ^ 63 ∨ maxClaimWait ≤ seconds count := by
  rw [grantedWait]
  by_cases hfits : count * second < 2 ^ 63
  · rw [seconds_eq hcount hfits]
    exact iff_of_true rfl (.inl hfits)
  · have hbound : min (count * second) maxClaimWait = maxClaimWait := min_eq_right (by omega)
    rw [hbound, min_eq_right_iff, or_iff_right hfits]

end Durations

/-- A claim is made with the documented lease and waits as documented exactly when neither
product wraps around to something that the clamp takes for a shorter request. -/
theorem exactDurations_iff_unwrapped {context : Context} (env : Env) {body : ClaimRequest}
    (hlease : 0 < context.server.lease) (hleaseMax : context.server.lease < 2 ^ 63)
    (hwaitMax : context.server.maxClaimWait < 2 ^ 63) (hleaseSeconds : 0 ≤ body.leaseSeconds)
    (hwaitSeconds : 0 ≤ body.waitSeconds) :
    ExactDurations context env body ↔ Unwrapped context body := by
  have hleaseIff := clampLease_eq_iff hlease hleaseMax hleaseSeconds
  have hwaitIff := min_seconds_eq_iff hwaitMax hwaitSeconds
  constructor
  · intro hexact
    constructor
    · apply hleaseIff.mp
      have hcall := hexact.lease
      rw [ClaimRequest.call, Call.claimNextJob.injEq] at hcall
      exact hcall.1
    · apply hwaitIff.mp
      exact add_left_cancel hexact.wait
  · intro hunwrapped
    constructor
    · rw [ClaimRequest.call, Context.lease, hleaseIff.mpr hunwrapped.lease]
    · rw [claimDeadline, hwaitIff.mpr hunwrapped.wait]

/-- The defaults of a deployment: five minutes and 25 seconds. -/
def defaultContext : Context where
  server := {
    lease := 5 * minute
    maxClaimWait := 25 * second
    apiKeys := []
    hashKey := fun _ => []
    collate := fun left right => left ≤ right
    quote := String.ofList }
  tenant := defaultTenant
  requestID := ""

def claimFor (leaseSeconds waitSeconds : ℤ) : ClaimRequest where
  queues := []
  names := []
  leaseSeconds := leaseSeconds
  waitSeconds := waitSeconds

theorem exactDurations_thirtySeconds :
    ExactDurations defaultContext (JobMachine.plainEnv 0 hour "") (claimFor 30 60) :=
  (exactDurations_iff_unwrapped _ (by decide) (by decide) (by decide) (by decide)
    (by decide)).mpr ⟨.inl (by decide), .inl (by decide)⟩

/-- Asked for 18446744074 seconds, the server grants 290448384 nanoseconds, and waits no
longer. -/
theorem not_forall_exactDurations :
    ¬∀ (context : Context) (env : Env) (body : ClaimRequest), 0 < context.server.lease →
      context.server.lease < 2 ^ 63 → context.server.maxClaimWait < 2 ^ 63 →
      0 ≤ body.leaseSeconds → body.leaseSeconds < 2 ^ 63 → 0 ≤ body.waitSeconds →
      body.waitSeconds < 2 ^ 63 → ExactDurations context env body := by
  intro hall
  have hexact := hall defaultContext (JobMachine.plainEnv 0 hour "")
    (claimFor 18446744074 18446744074) (by decide) (by decide) (by decide) (by decide)
    (by decide) (by decide) (by decide)
  exact absurd hexact.wait (by decide)

end Conduit.Api
