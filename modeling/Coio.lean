import Coio.Operation.Cancel
import Coio.Mutex.Safety
import Coio.Mutex.FairLock
import Coio.Latch.Waiters
import Coio.Semaphore.Safety
import Coio.Fifo.Throwing
import Coio.TimerQueue.Refinement
import Coio.Epoll.Readiness
import Coio.Epoll.Publish
import Coio.TimeLoop.Lifetime
import Coio.Io.Requests
import Coio.Io.Length
import Coio.OpQueue.Linearizable
import Coio.FlatBuffer.Prepared
import Coio.Deadline.Delay
import Coio.CoMemory.Placement
import Coio.RetainPtr.Owners
import Coio.InplaceVector.Growth
import Coio.Streambuf.Address
import Coio.Signal.Disposition
import Coio.WhenAny.Safety
import Coio.Task.Completion
import Coio.Generator.Flatten
import Coio.Uring.Completions
import Coio.Uring.Transfer
import Coio.Atomutex.Safety
import Coio.ObjectPool.Safety
import Coio.JsonRpc.RoundTrip
import Coio.StopCombiner.Once
import Coio.Backend.Devices
