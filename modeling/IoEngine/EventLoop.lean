import IoEngine.Handlers

/-!
# The Event Loop

This module embeds `io_service.c`: the timeouts, the dispatcher, the stop, and
`iosvc_run` itself.

The environment of a run is the behaviour of the handlers and the outcomes of the calls
of `poll`. The loops that are not bounded by a list or an array take fuel; a loop that
runs out of it has not returned.
-/

namespace IoEngine

open FdTree Svc

/-! ### Timeouts -/

section

variable {τ π : Type} [FdTree τ π]

/-- The end of the event branch of `timeout_first`: the node is located through its parent
pointer, and removed when no event is left. -/
def finishTimeout (s : Svc τ) (a : Addr) : Option (Svc τ) := do
  let place ← rbRefToThis s.asyncHandlers a
  let n ← s.nodes a
  let pollent ← s.pollfds.data[n.pollfdIdx]?
  if pollent.events = 0 then ioevtCleanupEvt s place else some s

/-- The event branch of `timeout_first`. -/
def timeoutEvent (beh : Behaviour τ) (s : Svc τ) (now : ℤ) : Option (Svc τ) := do
  let top ← s.timed[0]?
  let fd ← fdOf s.asyncHandlers top.ioOpData
  let (hnd, s) ← iosvcDequeue s top.ioOpData top.eventType now .timeout
  let s := s.setInt top.remaining 0
  let s ← callHandler beh (.event fd top.eventType .timeout now) hnd s
  finishTimeout s top.ioOpData

/-- The other branch of `timeout_first`: the handler is called while its entry is still in
the heap, and the first entry is removed afterwards. -/
def timeoutDelay (beh : Behaviour τ) (s : Svc τ) : Option (Svc τ) := do
  let top ← s.timedHandlersHeap.data[0]?
  let s := s.signal top.status .ok
  let s ← callHandler beh (.delay top .ok) top.handler s
  let last ← s.timedHandlersHeap.data.getLast?
  let heap := (s.timedHandlersHeap.set 0 last).popBack
  if heap.data = [] then some { s with timedHandlersHeap := heap }
  else do
    let l ← heapSiftDownIdx id delayHpEntLt delayHpEntSwp heap.data 0
    some { s with timedHandlersHeap := { heap with data := l } }

/-- `timeout_first`. -/
def timeoutFirst (beh : Behaviour τ) (s : Svc τ) (isEvent : Bool) (now : ℤ) :
    Option (Svc τ) :=
  if isEvent then timeoutEvent beh s now else timeoutDelay beh s

/-- `next_deadline`: the deadline and whether it is an event's; `-1` without a timer. -/
def nextDeadline (s : Svc τ) : ℤ × Bool :=
  let fromHandlers := match s.timedHandlersHeap.data[0]? with
    | none => (-1, false)
    | some top => (top.deadline, false)
  match s.timed[0]? with
  | none => fromHandlers
  | some top =>
      if fromHandlers.1 = -1 ∨ top.deadline < fromHandlers.1 then (top.deadline, true)
      else fromHandlers

/-- `is_top_event_ready`. -/
def isTopEventReady (s : Svc τ) : Option Bool :=
  match s.timed[0]? with
  | none => some false
  | some top => do
      let n ← s.nodes top.ioOpData
      let pollent ← s.pollfds.data[n.pollfdIdx]?
      some (decide (pollent.revents &&& readyMask top.eventType ≠ 0))

/-! ### The dispatcher -/

/-- The node at `a` is the one of `fd`, and the event is pending in it. -/
def servesLive (s : Svc τ) (fd : ℤ) (a : Addr) (wt : WaitType) : Bool :=
  decide (lookup s.asyncHandlers fd = some a) &&
    ((s.nodes a).bind fun n => n.pending wt).isSome

/-- Complete one event through the slot found for an entry. -/
def serve (beh : Behaviour τ) (s : Svc τ) (place : π) (fd : ℤ) (wt : WaitType) (now : ℤ)
    (code : IoErrcode) : Option (Svc τ) := do
  let a ← ← load s.asyncHandlers place
  let nodeFd ← fdOf s.asyncHandlers a
  let s := s.note (.dequeued fd wt (servesLive s fd a wt))
  let (hnd, s) ← iosvcDequeue s a wt now code
  callHandler beh (.event nodeFd wt code now) hnd s

/-- `serve` if a condition holds. -/
def serveIf (cond : Bool) (beh : Behaviour τ) (s : Svc τ) (place : π) (fd : ℤ)
    (wt : WaitType) (now : ℤ) (code : IoErrcode) : Option (Svc τ) :=
  if cond then serve beh s place fd wt now code else some s

/-- The slot holds the live node of `fd`, and no event is pending in it. -/
def removesVacant (s : Svc τ) (place : π) (fd : ℤ) : Bool :=
  decide (load s.asyncHandlers place = some (lookup s.asyncHandlers fd)) &&
    ((lookup s.asyncHandlers fd).bind s.nodes).any fun n =>
      [WaitType.read, .write, .exception].all fun wt => (n.pending wt).isNone

/-- Remove the node at the slot found for an entry. -/
def dispatchCleanup (s : Svc τ) (place : π) (fd : ℤ) : Option (Svc τ) :=
  ioevtCleanupEvt (s.note (.cleaned fd (removesVacant s place fd))) place

/-- `pfd_flags` and `wts`: the order in which the events of an invalid fd are completed. -/
def invalidOrder : List (PollMask × WaitType) :=
  [(pollin, .read), (pollout, .write), (pollpri, .exception)]

/-- Complete the events of an invalid fd. -/
def dispatchInvalid (beh : Behaviour τ) (i : ℕ) (place : π) (fd : ℤ) (now : ℤ) :
    List (PollMask × WaitType) → Svc τ → Option (Svc τ)
  | [], s => some s
  | (flag, wt) :: rest, s => do
      let pollent ← s.pollfds.data[i]?
      let s ← serveIf (pollent.events &&& flag ≠ 0) beh s place fd wt now .invarg
      dispatchInvalid beh i place fd now rest s

/-- The bits that make the dispatcher complete a read. -/
def hasRead (revents : PollMask) : Bool :=
  revents &&& (pollin ||| pollhup ||| pollrdband ||| pollrdnorm) ≠ 0

/-- The bits that make the dispatcher complete a write. -/
def hasWrite (revents : PollMask) : Bool :=
  revents &&& (pollout ||| pollwrnorm ||| pollwrband) ≠ 0

/-- The bit that makes the dispatcher complete an exception. -/
def hasPriority (revents : PollMask) : Bool :=
  revents &&& pollpri ≠ 0

/-- The read handler is called for readable data, and, by convention, when there is only an
error and nothing but `POLLERR` is still requested. -/
def readDue (s : Svc τ) (i : ℕ) (revents : PollMask) : Option Bool :=
  if !hasRead revents && !hasWrite revents && decide (revents &&& pollerr ≠ 0) then
    (s.pollfds.data[i]?).map fun pollent => decide (pollent.events &&& ~~~ pollpri = pollerr)
  else some (hasRead revents)

/-- The body of the loop of `dispatch_ready_events` for an entry with an invalid fd; the
entry at this position is looked at again afterwards. -/
def dispatchInvalidEntry (beh : Behaviour τ) (s : Svc τ) (i : ℕ) (place : π) (fd : ℤ)
    (now : ℤ) : Option (Bool × Svc τ) := do
  let s ← dispatchInvalid beh i place fd now invalidOrder s
  let pollent ← s.pollfds.data[i]?
  let s := { s with pollfds := s.pollfds.set i { pollent with revents := 0 } }
  if pollent.events = 0 then do
    let s ← dispatchCleanup s place fd
    some (false, s)
  else some (false, s)

/-- The body of the loop of `dispatch_ready_events` for the other entries. -/
def dispatchReadyEntry (beh : Behaviour τ) (s : Svc τ) (i : ℕ) (place : π) (fd : ℤ)
    (revents : PollMask) (now : ℤ) : Option (Bool × Svc τ) := do
  let s ← serveIf (hasPriority revents) beh s place fd .exception now .ok
  let due ← readDue s i revents
  let s ← serveIf due beh s place fd .read now .ok
  let s ← serveIf (hasWrite revents) beh s place fd .write now .ok
  let pollent ← s.pollfds.data[i]?
  if pollent.events = 0 then do
    let s ← dispatchCleanup s place fd
    some (false, s)
  else some (true, s)

/-- The body of the loop of `dispatch_ready_events`, and whether it goes on to the next
position. -/
def dispatchEntry (beh : Behaviour τ) (s : Svc τ) (i : ℕ) (now : ℤ) :
    Option (Bool × Svc τ) := do
  let pollent ← s.pollfds.data[i]?
  let place ← rbProbe s.asyncHandlers pollent.fd
  if pollent.revents &&& pollnval ≠ 0 then
    dispatchInvalidEntry beh s i place pollent.fd now
  else dispatchReadyEntry beh s i place pollent.fd pollent.revents now

/-- The loop of `dispatch_ready_events` from position `i`. -/
def dispatchLoop (beh : Behaviour τ) (now : ℤ) : ℕ → Svc τ → ℕ → Option (Svc τ)
  | 0, _, _ => none
  | fuel + 1, s, i =>
      if i < s.pollfds.data.length then do
        let (next, s) ← dispatchEntry beh s i now
        dispatchLoop beh now fuel s (if next then i + 1 else i)
      else some s

/-- `dispatch_ready_events`. -/
def dispatchReadyEvents (beh : Behaviour τ) (fuel : ℕ) (s : Svc τ) (now : ℤ) :
    Option (Svc τ) :=
  dispatchLoop beh now fuel s 0

/-! ### Posted handlers -/

/-- `run_sync_handlers`: a handler is removed after it has returned. -/
def runSyncHandlers (beh : Behaviour τ) : ℕ → Svc τ → Option (Svc τ)
  | 0, _ => none
  | fuel + 1, s =>
      match s.syncHandlers.elems with
      | [] => some s
      | currHnd :: _ => do
          let s ← callHandler beh .post currHnd s
          runSyncHandlers beh fuel { s with syncHandlers := s.syncHandlers.pop }

end

/-! ### Stopping -/

/-- The wait type of the event in a storage slot. -/
def EventNode.slotType (n : EventNode) : EvtSlot → WaitType
  | .main => if n.mainEvType = .read then .read else .write
  | .aux => if n.mainEvType = .read then .write else .read
  | .ex => .exception

/-- `stop_handler` of the event in a slot of a node, if one is pending there. -/
def stopHandler (beh : Behaviour RbMem) (now : ℤ) (a : Addr) (slot : EvtSlot)
    (s : Svc RbMem) : Option (Svc RbMem) := do
  let n ← s.nodes a
  let fd ← fdOf s.asyncHandlers a
  match n.deref slot with
  | none => some s
  | some evt =>
      if evt.live then do
        let s := s.signal evt.status .stopped
        let s ← (if 0 ≤ evt.ddlHeapIdx then
            (s.timed[evt.ddlHeapIdx.toNat]?).map fun ent =>
              s.setInt ent.remaining (remainingTime ent.deadline now)
          else some s : Option (Svc RbMem))
        callHandler beh (.event fd (n.slotType slot) .stopped now) evt.handler s
      else some s

/-- `stop_async_ops`: the events of a node, then those of its children, then the node is
freed. -/
def stopAsyncOps (beh : Behaviour RbMem) (now : ℤ) : ℕ → Ptr → Svc RbMem → Option (Svc RbMem)
  | _, none, s => some s
  | 0, some _, _ => none
  | fuel + 1, some a, s => do
      let s ← stopHandler beh now a .main s
      let s ← stopHandler beh now a .aux s
      let s ← stopHandler beh now a .ex s
      let s ← s.modifyNode a fun n => { n with auxEvent := none, exEvent := none }
      let links ← s.asyncHandlers.node a
      let s ← stopAsyncOps beh now fuel links.left s
      let links ← s.asyncHandlers.node a
      let s ← stopAsyncOps beh now fuel links.right s
      some { s with
        asyncHandlers := s.asyncHandlers.free a
        nodes := Function.update s.nodes a none }

/-- The loop of `iosvc_prep_stop` over the delayed handlers. -/
def stopDelayed (beh : Behaviour RbMem) : ℕ → ℕ → Svc RbMem → Option (Svc RbMem)
  | 0, _, _ => none
  | fuel + 1, i, s =>
      if i < s.timedHandlersHeap.data.length then do
        let ent ← s.timedHandlersHeap.data[i]?
        let s := s.signal ent.status .stopped
        let s ← callHandler beh (.delay ent .stopped) ent.handler s
        stopDelayed beh fuel (i + 1) s
      else some s

/-- `iosvc_prep_stop`. -/
def iosvcPrepStop (beh : Behaviour RbMem) (s : Svc RbMem) : Option (Svc RbMem) := do
  let s ← stopDelayed beh (s.timedHandlersHeap.data.length + 1) 0 s
  let s := { s with timedHandlersHeap := s.timedHandlersHeap.clear }
  let s ← stopAsyncOps beh s.clock (s.asyncHandlers.top + 1) s.asyncHandlers.root s
  some { s with
    timedEventsHeap := s.timedEventsHeap.clear
    pollfds := s.pollfds.clear
    asyncHandlers := { s.asyncHandlers with root := none } }

/-! ### The run -/

/-- What a call of `poll` does: it returns 0 once its delay is over, possibly late, or it
is interrupted, or it fails otherwise, or it reports ready fds. The `revents` are given by
position. -/
inductive PollOutcome
  | expired (late : ℕ)
  | interrupted (after : ℕ) (revents : List PollMask)
  | failed (after : ℕ)
  | ready (after : ℕ) (revents : List PollMask)

/-- The array with its `revents` set; positions without a value get 0. -/
def setRevents : List PollFd → List PollMask → List PollFd
  | [], _ => []
  | e :: l, [] => { e with revents := 0 } :: setRevents l []
  | e :: l, r :: rs => { e with revents := r } :: setRevents l rs

/-- Time passes in `poll`, and it sets the `revents`. -/
def pollReturns (s : Svc RbMem) (after : ℤ) (revents : List PollMask) : Svc RbMem :=
  { s with
    clock := s.clock + after
    pollfds := { s.pollfds with data := setRevents s.pollfds.data revents } }

/-- The delay given to `poll`: a negative one waits for ever. -/
def pollDelay (deadline pollTime : ℤ) : ℤ :=
  if deadline = -1 then -1
  else if pollTime < deadline then (Int32.ofInt (deadline - pollTime)).toInt
  else 0

/-- The test of `iosvc_run` after a `poll` that did not return 0: the first timer is due,
and it is not that of an event which is ready. -/
def timerDue (s : Svc RbMem) (isEvent : Bool) (delay elapsed : ℤ) : Option Bool :=
  if delay ≤ (Int32.ofInt elapsed).toInt ∧ delay ≠ -1 then
    if isEvent then (isTopEventReady s).map fun ready => !ready else some true
  else some false

/-- The part of an iteration of `iosvc_run` after a `poll` that did not return 0. -/
def afterPoll (beh : Behaviour RbMem) (fuel : ℕ) (s : Svc RbMem) (isEvent : Bool)
    (delay elapsed : ℤ) : Option (Svc RbMem) := do
  let now := s.clock
  let due ← timerDue s isEvent delay elapsed
  let s ← (if due then timeoutFirst beh s isEvent now else some s : Option (Svc RbMem))
  dispatchReadyEvents beh fuel s now

/-- An iteration of `iosvc_run` from the call of `poll` on. -/
def pollAndServe (beh : Behaviour RbMem) (fuel : ℕ) (s : Svc RbMem) (o : PollOutcome) :
    Option (Svc RbMem) :=
  let (deadline, isEvent) := nextDeadline s
  let delay := pollDelay deadline s.currentTime
  match o with
  | .expired late =>
      if delay < 0 then none
      else
        let s := pollReturns s (delay + late) []
        timeoutFirst beh s isEvent s.clock
  | .interrupted after revents =>
      afterPoll beh fuel (pollReturns s after revents) isEvent delay after
  | .failed after => some { pollReturns s after [] with status := .stopping }
  | .ready after revents => afterPoll beh fuel (pollReturns s after revents) isEvent delay after

/-- The loop of `iosvc_run`. -/
def runLoop (beh : Behaviour RbMem) : ℕ → List PollOutcome → Svc RbMem → Option (Svc RbMem)
  | 0, _, _ => none
  | fuel + 1, outcomes, s =>
      if s.pollfds.data = [] ∧ s.timedHandlersHeap.data = [] ∧ s.syncHandlers.elems = [] then
        some s
      else do
        let s ← runSyncHandlers beh fuel s
        if s.status = .stopping then iosvcPrepStop beh s
        else if s.pollfds.data = [] ∧ s.timedHandlersHeap.data = [] then
          runLoop beh fuel outcomes s
        else match outcomes with
        | [] => none
        | o :: outcomes => do
            let s ← pollAndServe beh fuel s o
            runLoop beh fuel outcomes s

/-- `iosvc_run`. -/
def iosvcRun (beh : Behaviour RbMem) (fuel : ℕ) (outcomes : List PollOutcome) (s : Svc RbMem) :
    Option (IoErrcode × Svc RbMem) :=
  match runRefused s with
  | some code => some (code, s)
  | none => do
      let s ← runLoop beh fuel outcomes { s with status := .running }
      some (if s.status = .running then .ok else .stopped, { s with status := .done })

end IoEngine
