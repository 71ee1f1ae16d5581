import RMemQueue.GroupRestart
import RMemQueue.GroupCoverage
import RMemQueue.World
import RMemQueue.Ownership
import RMemQueue.WorldRun
import RMemQueue.Shutdown
import RMemQueue.Subscription
import RMemQueue.InOrder
import RMemQueue.Registry
import RMemQueue.PartitionRun
import RMemQueue.PollOnce
import RMemQueue.ProduceRun
import RMemQueue.RoundRobin
import RMemQueue.LateWrites
import RMemQueue.GroupState
import RMemQueue.Balance
import RMemQueue.ResumePoint
import RMemQueue.Fairness
import RMemQueue.Drain
import RMemQueue.Seek
import RMemQueue.Wakeup
import RMemQueue.SharedConsumer
import RMemQueue.RetentionPolicy
import RMemQueue.AllOrNothing
import RMemQueue.Construction
import RMemQueue.BatchRead
import RMemQueue.Commits
import RMemQueue.CallerOffsets
import RMemQueue.Partitioning
import RMemQueue.WaitForMessages
import RMemQueue.Stream
import RMemQueue.LockOrder
import RMemQueue.LockSteps
import RMemQueue.EndToEnd
import RMemQueue.GroupReceiving
import RMemQueue.ReceivedInOrder
import RMemQueue.Failures
