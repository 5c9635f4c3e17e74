import IoEngine.FdTree
import IoEngine.HeapUtils
import IoEngine.IoTypes

/-!
# The Service

The state of an `io_service` and the functions that change it without calling a handler:
`iosvc_post.c`, `iosvc_sched.c`, `iosvc_dequeue.c`, `iosvc_stop` and `iosvc_reset`.

The state holds, beside the fields of `struct io_service`, what the functions read and
write outside of it: the event storage of the nodes, the allocator, the monotonic clock in
milliseconds, and the user's variables that status and remaining-time pointers designate.
`log` is a ghost field, newest entry first: no function reads it.

A function returns `none` when it follows `NULL` or a pointer to freed memory, or indexes
an array out of bounds.
-/

open BinHeap

namespace IoEngine

open FdTree

/-- The status of a service. -/
inductive SvcStatus
  | ready
  | running
  | stopping
  | done
  deriving DecidableEq, Repr

/-- What an accepted call leaves pending; a timed event comes with its `milliseconds`
pointer and the value found there. -/
inductive Accepted
  | post (hnd : IoHandler)
  | delay (ent : DelayHeapEntry)
  | event (fd : ℤ) (wt : WaitType) (hnd : IoHandler) (timer : Option (Addr × ℤ))

/-- Why a handler is called: it was posted, its delay is over, or the event of an fd is
complete; `now` is the time that the completing function works with. -/
inductive Cause
  | post
  | delay (ent : DelayHeapEntry) (code : IoErrcode)
  | event (fd : ℤ) (wt : WaitType) (code : IoErrcode) (now : ℤ)

/-- An entry of the ghost log: an accepted call, a handler that starts, with the time and
the user's variables it finds, or a step of the dispatcher on the fd it found ready, with
whether it was made on the live node of that fd and on a pending event. -/
inductive Obs
  | accepted (what : Accepted) (time : ℤ)
  | invoked (cause : Cause) (hnd : IoHandler) (time : ℤ) (ints : Addr → Int32)
      (errs : Addr → IoErrcode)
  | dequeued (fd : ℤ) (wt : WaitType) (sound : Bool)
  | cleaned (fd : ℤ) (sound : Bool)

/-- `struct io_service` and the memory around it. -/
structure Svc (τ : Type) where
  status : SvcStatus
  syncHandlers : CBuffer IoHandler
  timedHandlersHeap : DynArray DelayHeapEntry
  pollfds : DynArray PollFd
  timedEventsHeap : DynArray AsyncHeapEntry
  asyncHandlers : τ
  /-- the event storage of the live nodes -/
  nodes : Addr → Option EventNode
  alloc : Alloc
  clock : ℤ
  /-- the variables that `milliseconds` pointers designate -/
  ints : Addr → Int32
  /-- the variables that `status` pointers designate -/
  errs : Addr → IoErrcode
  log : List Obs

variable {τ π : Type}

/-- `iosvc_create`, in an environment given by the allocator, the clock and the user's
variables. -/
def iosvcCreate [FdTree τ π] (alloc : Alloc) (clock : ℤ) (ints : Addr → Int32)
    (errs : Addr → IoErrcode) : Svc τ where
  status := .ready
  syncHandlers := .init
  timedHandlersHeap := .init
  pollfds := .init
  timedEventsHeap := .init
  asyncHandlers := empty
  nodes := fun _ => none
  alloc := alloc
  clock := clock
  ints := ints
  errs := errs
  log := []

namespace Svc

/-- Add an entry to the ghost log. -/
def note (s : Svc τ) (o : Obs) : Svc τ :=
  { s with log := o :: s.log }

/-- `current_time`. -/
def currentTime (s : Svc τ) : ℤ := s.clock

/-- `if (status) *status = code;`. -/
def signal (s : Svc τ) (status : Ptr) (code : IoErrcode) : Svc τ :=
  match status with
  | none => s
  | some p => { s with errs := Function.update s.errs p code }

/-- `*p = v` for an `int` of the user's. -/
def setInt (s : Svc τ) (p : Addr) (v : Int32) : Svc τ :=
  { s with ints := Function.update s.ints p v }

/-- Write to the storage of a live node. -/
def modifyNode (s : Svc τ) (a : Addr) (f : EventNode → EventNode) : Option (Svc τ) :=
  (s.nodes a).map fun n => { s with nodes := Function.update s.nodes a (some (f n)) }

/-- Write through the pointer to an event's data. -/
def modifyEvt (s : Svc τ) (a : Addr) (slot : EvtSlot) (f : EventData → EventData) :
    Option (Svc τ) := do
  let n ← s.nodes a
  let d ← n.deref slot
  some { s with nodes := Function.update s.nodes a (some (n.assign (f d) slot)) }

/-- `get_evt_data(node, wt)->ddl_heap_idx = idx`. -/
def setDdlHeapIdx (s : Svc τ) (a : Addr) (wt : WaitType) (idx : ℤ) : Option (Svc τ) := do
  let n ← s.nodes a
  let slot ← n.getEvtData wt
  s.modifyEvt a slot fun d => { d with ddlHeapIdx := idx }

/-- `get_evt_data(node, wt)->ddl_heap_idx`. -/
def getDdlHeapIdx (s : Svc τ) (a : Addr) (wt : WaitType) : Option ℤ := do
  let n ← s.nodes a
  let slot ← n.getEvtData wt
  (n.deref slot).map EventData.ddlHeapIdx

/-- Replace the contents of the heap of timed events. -/
def setTimed (s : Svc τ) (l : List AsyncHeapEntry) : Svc τ :=
  { s with timedEventsHeap := { s.timedEventsHeap with data := l } }

/-- The contents of the heap of timed events. -/
def timed (s : Svc τ) : List AsyncHeapEntry := s.timedEventsHeap.data

end Svc

open Svc

/-! ### Timers -/

/-- `async_hp_ent_swp`: exchange two entries and the back-indices of their events. -/
def asyncHpEntSwp (i j : ℕ) (s : Svc τ) : Option (Svc τ) := do
  let e₁ ← s.timed[i]?
  let e₂ ← s.timed[j]?
  let s := s.setTimed (swapAt s.timed i j)
  -- after the exchange the first entry is `e₂` and the second one is `e₁`
  let idx₁ ← s.getDdlHeapIdx e₂.ioOpData e₂.eventType
  let idx₂ ← s.getDdlHeapIdx e₁.ioOpData e₁.eventType
  let s ← s.setDdlHeapIdx e₂.ioOpData e₂.eventType idx₂
  s.setDdlHeapIdx e₁.ioOpData e₁.eventType idx₁

/-- `heap_sift_up_idx` on the heap of timed events. -/
def siftUpTimed (s : Svc τ) (idx : ℕ) : Option (Svc τ) :=
  heapSiftUpIdx Svc.timed asyncHpEntLt asyncHpEntSwp s idx

/-- `heap_sift_down_idx` on the heap of timed events. -/
def siftDownTimed (s : Svc τ) (idx : ℕ) : Option (Svc τ) :=
  heapSiftDownIdx Svc.timed asyncHpEntLt asyncHpEntSwp s idx

/-- `delay_hp_ent_swp`. -/
def delayHpEntSwp (i j : ℕ) (l : List DelayHeapEntry) : Option (List DelayHeapEntry) :=
  some (swapAt l i j)

/-- The remaining time of a deadline, as an `int`. -/
def remainingTime (deadline now : ℤ) : Int32 :=
  if now < deadline then Int32.ofInt (deadline - now) else 0

/-- The middle part of `iosvc_dequeue`: signal the remaining time of the timed event at
position `idx` of the heap, and remove its entry by giving it a deadline lower than all
others. -/
def popTimed (s : Svc τ) (idx : ℕ) (now : ℤ) : Option (Svc τ) := do
  let ent ← s.timed[idx]?
  let s := s.setInt ent.remaining (remainingTime ent.deadline now)
  let s := s.setTimed (s.timed.set idx { ent with deadline := -1 })
  let s ← siftUpTimed s idx
  let s ← asyncHpEntSwp 0 (s.timed.length - 1) s
  let s := { s with timedEventsHeap := s.timedEventsHeap.popBack }
  if s.timed = [] then some s else siftDownTimed s 0

/-! ### Removing events -/

section

variable [FdTree τ π]

/-- The last part of `iosvc_dequeue`: unset the poll bits of an event. -/
def clearEvents (events : PollMask) (wt : WaitType) : PollMask :=
  let events := events &&& ~~~ dequeueMask wt
  if events &&& (dequeueMask .read ||| dequeueMask .write) = 0 then events &&& ~~~ pollerr
  else events

/-- `iosvc_dequeue`: vacate the storage of an event and return its handler. -/
def iosvcDequeue (s : Svc τ) (a : Addr) (evType : WaitType) (now : ℤ) (status : IoErrcode) :
    Option (IoHandler × Svc τ) := do
  let n ← s.nodes a
  let slot ← n.getEvtData evType
  let evt ← n.deref slot
  let s ← (if 0 ≤ evt.ddlHeapIdx then popTimed s evt.ddlHeapIdx.toNat now else some s :
    Option (Svc τ))
  let s ← s.modifyEvt a slot fun d => { d with handler := { d.handler with callback := none } }
  let s := s.signal evt.status status
  let s ← s.modifyNode a fun n => if n.rdWrVacant then { n with mainEvType := .empty } else n
  let pollent ← s.pollfds.data[n.pollfdIdx]?
  let pollent := { pollent with events := clearEvents pollent.events evType }
  some (evt.handler, { s with pollfds := s.pollfds.set n.pollfdIdx pollent })

/-- `ioevt_cleanup_evt`: remove the node at a slot and its `pollfd`, whose position the
last one takes. -/
def ioevtCleanupEvt (s : Svc τ) (place : π) : Option (Svc τ) := do
  let (toRemove, t) ← rbExtract s.asyncHandlers place
  let n ← s.nodes toRemove
  let s := { s with
    asyncHandlers := free t toRemove
    nodes := Function.update s.nodes toRemove none }
  let last ← s.pollfds.data.getLast?
  let _ ← s.pollfds.data[n.pollfdIdx]?
  let s := { s with pollfds := (s.pollfds.set n.pollfdIdx last).popBack }
  if n.pollfdIdx < s.pollfds.data.length then
    let moved ← s.pollfds.data[n.pollfdIdx]?
    let place ← rbProbe s.asyncHandlers moved.fd
    let b ← ← load s.asyncHandlers place
    s.modifyNode b fun k => { k with pollfdIdx := n.pollfdIdx }
  else some s

/-! ### Adding events -/

/-- The new node of `reserve_evt_mem`, or the one in the slot; `none` when a new one
cannot be allocated. -/
def reserveNode (s : Svc τ) (fd : ℤ) : Ptr → Ptr × Svc τ
  | some a => (some a, s)
  | none =>
      match s.alloc.malloc with
      | (none, al) => (none, { s with alloc := al })
      | (some a, al) =>
          (some a, { s with
            alloc := al
            asyncHandlers := makeRbnode s.asyncHandlers a fd
            nodes := Function.update s.nodes a (some .zero) })

/-- The end of `reserve_evt_mem`: a new node is inserted, or freed when its event has no
storage; in every case it is written to the slot. -/
def linkNode (s : Svc τ) (place : π) (a : Addr) (isNew reserved : Bool) : Option (Svc τ) := do
  let s ← (if isNew then
      if reserved then do
        let t ← rbInsert s.asyncHandlers a place
        let t ← store t place a
        some { s with asyncHandlers := t }
      else
        some { s with
          asyncHandlers := free s.asyncHandlers a
          nodes := Function.update s.nodes a none }
    else some s : Option (Svc τ))
  let t ← store s.asyncHandlers place a
  some { s with asyncHandlers := t }

/-- `reserve_evt_mem`: storage for an event, in the node at a slot or in a new one. The
first component is the pointer returned: a node and the place in it, or `NULL`. -/
def reserveEvtMem (s : Svc τ) (place : π) (fd : ℤ) (wt : WaitType) :
    Option (Option (Addr × EvtSlot) × Svc τ) := do
  let cur ← load s.asyncHandlers place
  match reserveNode s fd cur with
  | (none, s) => some (none, s)
  | (some a, s) =>
      let n ← s.nodes a
      let (al, n, slot) := reserveSlot s.alloc n wt
      let s := { s with alloc := al, nodes := Function.update s.nodes a (some n) }
      let s ← linkNode s place a cur.isNone slot.isSome
      some (slot.map fun slot => (a, slot), s)

/-- The second half of `iosvc_enqueue`, when the event is not yet scheduled and a new node
has its `pollfd` already. -/
def enqueueAt (s : Svc τ) (place : π) (isNew : Bool) (fd : ℤ) (wt : WaitType)
    (hnd : IoHandler) (status : Ptr) : Option (IoErrcode × Ptr × Svc τ) := do
  let (data, s) ← reserveEvtMem s place fd wt
  match data with
  | none =>
      some (.nomem, none, if isNew then { s with pollfds := s.pollfds.popBack } else s)
  | some (a, slot) =>
      let s ← s.modifyEvt a slot fun _ => ⟨hnd, status, -1⟩
      let outNode ← ← load s.asyncHandlers place
      let s ← (if isNew then do
          let s ← s.modifyNode outNode fun n => { n with pollfdIdx := s.pollfds.data.length - 1 }
          some { s with pollfds := s.pollfds.set (s.pollfds.data.length - 1) ⟨fd, 0, 0⟩ }
        else some s : Option (Svc τ))
      let n ← s.nodes outNode
      let pollent ← s.pollfds.data[n.pollfdIdx]?
      let pollent := { pollent with events := pollent.events ||| enqueueMask wt }
      some (.ok, some outNode, { s with pollfds := s.pollfds.set n.pollfdIdx pollent })

/-- `iosvc_enqueue`: the returned code, the node of the event, and the new state. -/
def iosvcEnqueue (s : Svc τ) (event : IoEvent) (hnd : IoHandler) (status : Ptr) :
    Option (IoErrcode × Ptr × Svc τ) :=
  if s.status ≠ .ready ∧ s.status ≠ .running then some (.stopped, none, s)
  else match hnd.callback, event.waitType with
  | some _, some wt => do
      let place ← rbProbe s.asyncHandlers event.fd
      match ← load s.asyncHandlers place with
      | some a =>
          let n ← s.nodes a
          if n.isScheduled wt then some (.inprogress, none, s)
          else enqueueAt s place false event.fd wt hnd status
      | none =>
          match s.pollfds.emplaceBack s.alloc with
          | (none, al) => some (.nomem, none, { s with alloc := al })
          | (some pollfds, al) =>
              enqueueAt { s with pollfds := pollfds, alloc := al } place true event.fd wt hnd
                status
  | _, _ => some (.invarg, none, s)

/-- `iosvc_sched`. -/
def iosvcSched (s : Svc τ) (event : IoEvent) (hnd : IoHandler) (status : Ptr) :
    Option (IoErrcode × Svc τ) := do
  let (code, _, s) ← iosvcEnqueue s event hnd status
  match code, event.waitType with
  | .ok, some wt => some (.ok, s.note (.accepted (.event event.fd wt hnd none) s.clock))
  | code, _ => some (code, s)

/-- `iosvc_sched_timeout`. The heap slot is taken first and given back when the event is
not accepted. -/
def iosvcSchedTimeout (s : Svc τ) (event : IoEvent) (hnd : IoHandler) (status : Ptr)
    (milliseconds : Addr) : Option (IoErrcode × Svc τ) :=
  let timeout := (s.ints milliseconds).toInt
  let deadline := s.currentTime + timeout
  match s.timedEventsHeap.emplaceBack s.alloc with
  | (none, al) => some (.nomem, { s with alloc := al })
  | (some heap, al) => do
      let (code, resNode, s) ←
        iosvcEnqueue { s with timedEventsHeap := heap, alloc := al } event hnd status
      match code, resNode, event.waitType with
      | .ok, some a, some wt =>
          let heapIdx := s.timed.length - 1
          let s := s.setTimed (s.timed.set heapIdx ⟨deadline, milliseconds, a, wt⟩)
          let s ← s.setDdlHeapIdx a wt heapIdx
          let s ← siftUpTimed s heapIdx
          some (.ok, s.note
            (.accepted (.event event.fd wt hnd (some (milliseconds, timeout))) s.clock))
      | code, _, _ => some (code, { s with timedEventsHeap := s.timedEventsHeap.popBack })

end

/-! ### Posting, stopping, resetting -/

/-- `iosvc_post`. -/
def iosvcPost (s : Svc τ) (hnd : IoHandler) : IoErrcode × Svc τ :=
  if s.status ≠ .running ∧ s.status ≠ .ready then (.stopped, s)
  else if hnd.callback.isNone then (.invarg, s)
  else match s.syncHandlers.push hnd s.alloc with
  | (none, al) => (.nomem, { s with alloc := al })
  | (some buf, al) =>
      (.ok, { s with syncHandlers := buf, alloc := al }.note (.accepted (.post hnd) s.clock))

/-- `iosvc_post_delay`. -/
def iosvcPostDelay (s : Svc τ) (hnd : IoHandler) (status : Ptr) (milliseconds : Int32) :
    Option (IoErrcode × Svc τ) :=
  let deadline := s.currentTime + milliseconds.toInt
  if hnd.callback.isNone ∨ milliseconds.toInt < 0 then some (.invarg, s)
  else if s.status = .stopping ∨ s.status = .done then some (.stopped, s)
  else match s.timedHandlersHeap.emplaceBack s.alloc with
  | (none, al) => some (.nomem, { s with alloc := al })
  | (some heap, al) => do
      let idx := heap.data.length - 1
      let ent := ⟨deadline, hnd, status⟩
      let l ← heapSiftUpIdx id delayHpEntLt delayHpEntSwp (heap.data.set idx ent) idx
      some (.ok, { s with timedHandlersHeap := { heap with data := l }, alloc := al }.note
        (.accepted (.delay ent) s.clock))

/-- `iosvc_stop`. -/
def iosvcStop (s : Svc τ) : IoErrcode × Svc τ :=
  match s.status with
  | .running => (.ok, { s with status := .stopping })
  | .stopping => (.inprogress, s)
  | _ => (.noentry, s)

/-- `iosvc_reset`. -/
def iosvcReset (s : Svc τ) : IoErrcode × Svc τ :=
  match s.status with
  | .running => (.inprogress, s)
  | .stopping => (.inprogress, s)
  | _ => (.ok, { s with status := .ready })

end IoEngine
