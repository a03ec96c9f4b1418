import Conduit.Service.JobService

/-!
# The claim of a job delivered by Kafka

`Enqueue` publishes the job it stored as JSON.  `jobWorker.Run` takes a decoded
message, waits for its `scheduled_at`, and marks the job running through
`UpdateJob` with the fields the message carries.
-/

namespace Conduit.JobWorker

open Models

/-- `omitempty` drops an empty map, which then decodes as a nil one. -/
def omitEmpty (fields : Option StringMap) : Option StringMap :=
  if fields = some ∅ then none else fields

/-- The job a consumer decodes from the message `Publish` encodes.  The lease
token is never serialised.  The payload may come back with other spacing;
nothing in the claim reads it. -/
def delivered (job : Job) : Job := { job with
  leaseToken := ""
  metadata := omitEmpty job.metadata
  task := { job.task with metadata := omitEmpty job.task.metadata } }

/-- `Run` goes on to claim a message once it has waited out the message's
`scheduled_at`, unless the job in it is running already. -/
def ClaimsMessage (now : ℤ) (message : Job) : Prop :=
  (∀ scheduledAt ∈ message.scheduledAt, scheduledAt ≤ now) ∧ message.state ≠ .running

instance (now : ℤ) (message : Job) : Decidable (ClaimsMessage now message) :=
  inferInstanceAs (Decidable (_ ∧ _))

def effectiveLease (lease : ℤ) : ℤ :=
  if 0 < lease then lease else 5 * minute

/-- The job `Run` hands to `UpdateJob`. -/
def claimMessage (lease now : ℤ) (leaseToken : String) (message : Job) : Job :=
  { message with
    attempt := message.attempt + 1
    state := .running
    startedAt := some now
    leaseExpiresAt := some (now + effectiveLease lease)
    leaseToken := leaseToken }

end Conduit.JobWorker
