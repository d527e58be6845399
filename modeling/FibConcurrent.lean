import FibConcurrent.Allocation
import FibConcurrent.DistFifo.Linearizable
import FibConcurrent.FifoStealBuffer.Correct
import FibConcurrent.FifoStealBuffer.Linearizable
import FibConcurrent.HazardPointer.Garbage
import FibConcurrent.HazardPointer.TotalStoreOrder
import FibConcurrent.LockfreeRingBuffer.Linearizable
import FibConcurrent.MpmcFifo.Destroy
import FibConcurrent.MpmcFifo.Linearizable
import FibConcurrent.MpmcFifo.Progress
import FibConcurrent.MpmcFifo.Slots
import FibConcurrent.MpmcLifo.Linearizable
import FibConcurrent.MpmcLifo.Progress
import FibConcurrent.MpmcStack.Linearizable
import FibConcurrent.MpmcStack.Progress
import FibConcurrent.MpmcStack.Timeout
import FibConcurrent.MpscFifo.Linearizable
import FibConcurrent.MpscrFifo.Correct
import FibConcurrent.MpscrFifo.Linearizable
import FibConcurrent.MpscrFifo.Progress
import FibConcurrent.MpscrFifo.RoundRobin
import FibConcurrent.QueueDef
import FibConcurrent.ShardedFifoStealBuffer.Layout
import FibConcurrent.ShardedFifoStealBuffer.Linearizable
import FibConcurrent.ShardedFifoStealBuffer.Output
import FibConcurrent.ShardedFifoStealBuffer.Push
import FibConcurrent.ShardedFifoStealBuffer.Refinement
import FibConcurrent.ShardedFifoStealBuffer.Steal
import FibConcurrent.WorkQueue.Progress
import FibConcurrent.WorkStealingDeque.Correct
import FibConcurrent.WorkStealingDeque.Grow
import FibConcurrent.WorkStealingDeque.Linearizable
