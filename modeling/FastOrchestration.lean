import FastOrchestration.Audit.ReadBack
import FastOrchestration.Chasm.PathEncoder
import FastOrchestration.Chasm.ReplicationRuns
import FastOrchestration.Chasm.TransitionHistory
import FastOrchestration.Cluster.FailoverVersions
import FastOrchestration.HistoryBuilder.EventStore
import FastOrchestration.Hsm.OperationLog
import FastOrchestration.Hsm.StateMachineTimers
import FastOrchestration.Locks.PrioritySemaphore
import FastOrchestration.Matching.AssignmentLaws
import FastOrchestration.Matching.FairBacklogRuns
import FastOrchestration.Matching.FairnessCounter
import FastOrchestration.Matching.MatcherRuns
import FastOrchestration.Matching.PartitionTree
import FastOrchestration.Matching.PriBacklogRuns
import FastOrchestration.Matching.SimpleLimiter
import FastOrchestration.Matching.VersionSetRuns
import FastOrchestration.Persistence.HistoryTree
import FastOrchestration.Persistence.QueueV2Runs
import FastOrchestration.Persistence.VisibilityPages
import FastOrchestration.Queues.SliceRuns
import FastOrchestration.Queues.PredicateMeaning
import FastOrchestration.Queues.QueueRuns
import FastOrchestration.Queues.ScheduledPaging
import FastOrchestration.Queues.TaskAttempts
import FastOrchestration.Scheduler.DaylightSaving
import FastOrchestration.Scheduler.InvokerBuffer
import FastOrchestration.Scheduler.PureTasks
import FastOrchestration.Scheduler.RangeGrammar
import FastOrchestration.Shard.TaskKeys
import FastOrchestration.WorkerDeployment.Routing
import FastOrchestration.WorkflowUpdate.Resolution
