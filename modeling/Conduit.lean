import Conduit.Core.Transition
import Conduit.Core.Relational
import Conduit.Store.Models
import Conduit.Store.Statements
import Conduit.Service.JobService
import Conduit.Worker.KafkaClaim
import Conduit.Core.Fencing
import Conduit.Jobs.Calls
import Conduit.Jobs.Machine
import Conduit.Jobs.LeaseFencing
import Conduit.Jobs.RowInvariant
import Conduit.Jobs.RetryBudget
import Conduit.Jobs.KafkaRedelivery
import Conduit.Jobs.IdempotentEnqueue
import Conduit.Breaker.Breaker
import Conduit.Breaker.Recovery
import Conduit.Breaker.Probes
import Conduit.Breaker.History
import Conduit.Store.Schedules
import Conduit.Core.Calendar
import Conduit.Core.Decimal
import Conduit.Scheduler.Cron
import Conduit.Scheduler.NextOccurrence
import Conduit.Scheduler.CronLoops
import Conduit.Scheduler.CronGrammar
import Conduit.Scheduler.Fire
import Conduit.Scheduler.KeepsFiring
import Conduit.Scheduler.Replicas
import Conduit.Scheduler.OneJobPerFire
import Conduit.Core.Base64
import Conduit.Core.View
import Conduit.Store.Listing
import Conduit.Core.Keyset
import Conduit.Store.Cursor
import Conduit.Store.Paging
import Conduit.Jobs.ClaimDrain
import Conduit.Store.Columns
import Conduit.Store.RoundTrip
import Conduit.Core.Paths
import Conduit.Store.Migrate
import Conduit.Store.MigrationStep
import Conduit.Store.MigrationRuns
import Conduit.Api.Handlers
import Conduit.Api.Provenance
import Conduit.Api.TenantIntegrity
import Conduit.Api.TenantView
import Conduit.Api.Noninterference
import Conduit.Core.SqlLexing
import Conduit.Core.SqlEmbedding
import Conduit.Etl.ExtractSql
import Conduit.Etl.StatementFilter
import Conduit.Etl.InsertSql
import Conduit.Etl.SingleStatement
import Conduit.Core.Quoting
import Conduit.Etl.Identifiers
import Conduit.Worker.Pool
import Conduit.Worker.PoolBounds
import Conduit.Worker.PoolDrain
import Conduit.Reconciler.Reconcile
import Conduit.Reconciler.RefusedClaims
import Conduit.Core.Pruning
import Conduit.Reconciler.RetentionSweep
import Conduit.Worker.Run
import Conduit.Worker.ShutdownOutcome
import Conduit.Scheduler.Dispatch
import Conduit.Jobs.StateChanges
import Conduit.Jobs.FailReport
import Conduit.Jobs.Retention
import Conduit.Api.LeasePromise
import Conduit.Api.ClaimDurations
import Conduit.Lock.Advisory
import Conduit.Lock.Ownership
import Conduit.Lock.Redlock
import Conduit.Lock.MutualExclusion
import Conduit.Webhook.Executor
import Conduit.Webhook.SsrfGuard
import Conduit.Queue.Waker
import Conduit.Core.LeasedQueue
import Conduit.Core.Refinement
import Conduit.Jobs.QueueRefinement
import Conduit.Core.Binary64
import Conduit.Lock.AdvisoryCluster
import Conduit.Lock.KeyExpiry
import Conduit.Retry.Backoff
import Conduit.Jobs.RetryWait
import Conduit.Reconciler.Loop
import Conduit.Worker.LeaseRenewal
import Conduit.Reconciler.Recovery
import Conduit.Api.IssuedKeys
import Conduit.Queue.KafkaConsumer
import Conduit.Worker.TaskBreakers
import Conduit.Scheduler.FiredTemplate
import Conduit.Core.Duration
import Conduit.Config.Environment
import Conduit.Worker.ExclusiveExecution
import Conduit.Etl.AcceptedStatements
