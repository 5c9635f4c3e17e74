import IoEngine.Lib.RedBlack
import IoEngine.Lib.BinHeap
import IoEngine.Lib.Blocks
import IoEngine.Lib.Agenda
import IoEngine.Lib.Machine
import IoEngine.Lib.Jumps
import IoEngine.Lib.Ownership
import IoEngine.Lib.Programs
import IoEngine.RbTree
import IoEngine.RbRepr
import IoEngine.RbInsert
import IoEngine.RbProbe
import IoEngine.RbDelete
import IoEngine.RbExtract
import IoEngine.RbMap
import IoEngine.HeapUtils
import IoEngine.IoTypes
import IoEngine.CircularBuffer
import IoEngine.FdTree
import IoEngine.Service
import IoEngine.Handlers
import IoEngine.EventLoop
import IoEngine.RbAdjacent
import IoEngine.EventStore
import IoEngine.Timers
import IoEngine.Consistent
import IoEngine.Dequeue
import IoEngine.Enqueue
import IoEngine.Calls
import IoEngine.Scheduling
import IoEngine.FailedCalls
import IoEngine.Histories
import IoEngine.Completion
import IoEngine.DispatchSteps
import IoEngine.Dispatch
import IoEngine.Semaphore
import IoEngine.RbSearch
import IoEngine.NodeStorage
import IoEngine.Stopping
import IoEngine.PrepStop
import IoEngine.Posting
import IoEngine.PostRuns
import IoEngine.PostEnds
import IoEngine.ServiceAgenda
import IoEngine.Permits
import IoEngine.AsyncRdWr
import IoEngine.RunSteps
import IoEngine.OwnHandlers
import IoEngine.Served
import IoEngine.Readiness
import IoEngine.QuietPass
import IoEngine.Iteration
import IoEngine.StopView
import IoEngine.LoopSteps
import IoEngine.RemainingTime
import IoEngine.AgendaSteps
import IoEngine.ServiceRuns
import IoEngine.Coroutine
import IoEngine.TaskGroup
import IoEngine.Deletion
import IoEngine.AsyncOps
import IoEngine.Dynarray
import IoEngine.SiftRounds
import IoEngine.RbPacked
import IoEngine.RbSteps
