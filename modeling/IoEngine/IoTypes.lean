import Mathlib.Data.Int.Notation
import IoEngine.RbTree

/-!
# The Data of the Service

The types of `iotypes.h`, the event storage of an `rb_node` (`rbnode.h`), the heap entries
of the two timer heaps, and the poll masks.

An fd may have up to three pending events, one for each wait type. A node keeps one read
or write event inline (`mainEvent`, whose type is `mainEvType`), the other of the two in a
separate block (`auxEvent`), and the exception event in another (`exEvent`). A block that
has been vacated is kept, marked by a `NULL` callback, and may be moved between `aux` and
`ex` when the other one needs storage. A pointer to an `event_data` is represented by the
place in the node where it lives (`EvtSlot`).
-/

namespace IoEngine

/-- `io_wait_type`. -/
inductive WaitType
  | read
  | write
  | exception
  deriving DecidableEq, Repr

/-- `io_errcode`. -/
inductive IoErrcode
  | ok
  | timeout
  | cancelled
  | stopped
  | invarg
  | noentry
  | nomem
  | inprogress
  | syserr
  | eof
  deriving DecidableEq, Repr

/-- `io_event`. A wait type is one of the three constants, or (`none`) the value `3u`,
which is the only other one that `iosvc_enqueue` looks for. -/
structure IoEvent where
  fd : ℤ
  waitType : Option WaitType
  deriving DecidableEq, Repr

/-- `io_handler`: a function pointer, which may be `NULL`, and its argument. -/
structure IoHandler where
  callback : Option ℕ
  ctx : ℕ
  deriving DecidableEq, Repr

/-- The handler in zeroed memory. -/
def IoHandler.zero : IoHandler := ⟨none, 0⟩

/-- `event_data`. The status pointer may be `NULL`. -/
structure EventData where
  handler : IoHandler
  status : Ptr
  /-- the event's position in the heap of timed events, negative without a timeout -/
  ddlHeapIdx : ℤ
  deriving DecidableEq, Repr

/-- The `event_data` in zeroed memory, also used for blocks from `malloc`, whose contents
are written before they are read. -/
def EventData.zero : EventData := ⟨.zero, none, 0⟩

/-- The storage is in use. -/
def EventData.live (d : EventData) : Bool :=
  d.handler.callback.isSome

/-- The type of a node's inline event. -/
inductive MainEvType
  | empty
  | read
  | write
  deriving DecidableEq, Repr

/-- The part of an `rb_node` that the service keeps: the event storage and the position of
its `pollfd`. -/
structure EventNode where
  mainEvType : MainEvType
  pollfdIdx : ℕ
  mainEvent : EventData
  auxEvent : Option EventData
  exEvent : Option EventData
  deriving DecidableEq, Repr

/-- The storage in a node from `calloc`. -/
def EventNode.zero : EventNode := ⟨.empty, 0, .zero, none, none⟩

/-- Where in a node an `event_data *` points to. -/
inductive EvtSlot
  | main
  | aux
  | ex
  deriving DecidableEq, Repr

/-- `delay_heap_entry`. -/
structure DelayHeapEntry where
  deadline : ℤ
  handler : IoHandler
  status : Ptr
  deriving DecidableEq, Repr

instance : Inhabited DelayHeapEntry := ⟨⟨0, .zero, none⟩⟩

/-- `async_heap_entry`. -/
structure AsyncHeapEntry where
  deadline : ℤ
  /-- where the remaining time is written to -/
  remaining : Addr
  ioOpData : Addr
  eventType : WaitType
  deriving DecidableEq, Repr

instance : Inhabited AsyncHeapEntry := ⟨⟨0, 0, 0, .read⟩⟩

/-- `delay_hp_ent_lt`. -/
def delayHpEntLt (e₁ e₂ : DelayHeapEntry) : Bool :=
  decide (e₁.deadline < e₂.deadline)

/-- `async_hp_ent_lt`. -/
def asyncHpEntLt (e₁ e₂ : AsyncHeapEntry) : Bool :=
  decide (e₁.deadline < e₂.deadline)

/-! ### Poll masks -/

/-- A set of poll bits, a `short`. -/
abbrev PollMask := BitVec 16

/-- `struct pollfd`. -/
structure PollFd where
  fd : ℤ
  events : PollMask
  revents : PollMask
  deriving DecidableEq, Repr

instance : Inhabited PollFd := ⟨⟨0, 0, 0⟩⟩

section masks

def pollin : PollMask := 0x001#16
def pollpri : PollMask := 0x002#16
def pollout : PollMask := 0x004#16
def pollerr : PollMask := 0x008#16
def pollhup : PollMask := 0x010#16
def pollnval : PollMask := 0x020#16
def pollrdnorm : PollMask := 0x040#16
def pollrdband : PollMask := 0x080#16
def pollwrnorm : PollMask := 0x100#16
def pollwrband : PollMask := 0x200#16

end masks

/-- `evt_masks` of `iosvc_enqueue`: the bits requested for a wait type. -/
def enqueueMask : WaitType → PollMask
  | .read => pollrdnorm ||| pollrdband ||| pollerr ||| pollhup ||| pollin
  | .write => pollwrnorm ||| pollwrband ||| pollerr ||| pollout
  | .exception => pollpri

/-- `evt_masks` of `iosvc_dequeue`: the bits of a wait type without the shared
`POLLERR`. -/
def dequeueMask : WaitType → PollMask
  | .read => pollin ||| pollhup ||| pollrdnorm ||| pollrdband
  | .write => pollout ||| pollwrnorm ||| pollwrband
  | .exception => pollpri

/-- `evt_masks` of `is_top_event_ready`. -/
def readyMask : WaitType → PollMask
  | .read => pollin ||| pollhup ||| pollrdnorm ||| pollrdband ||| pollerr
  | .write => pollout ||| pollwrnorm ||| pollwrband ||| pollerr
  | .exception => pollpri

/-! ### The event storage of a node -/

namespace EventNode

/-- The inline event is of this wait type. -/
def mainIs (n : EventNode) : WaitType → Bool
  | .read => n.mainEvType = .read
  | .write => n.mainEvType = .write
  | .exception => false

/-- `get_evt_data`: the storage of the event of a wait type, `none` for `NULL`. -/
def getEvtData (n : EventNode) (evType : WaitType) : Option EvtSlot :=
  if evType = .exception then n.exEvent.map fun _ => .ex
  else if n.mainEvType = .empty then none
  else if n.mainIs evType then some .main
  else n.auxEvent.map fun _ => .aux

/-- Read through an `event_data *`. -/
def deref (n : EventNode) : EvtSlot → Option EventData
  | .main => some n.mainEvent
  | .aux => n.auxEvent
  | .ex => n.exEvent

/-- Write through an `event_data *`. -/
def assign (n : EventNode) (d : EventData) : EvtSlot → EventNode
  | .main => { n with mainEvent := d }
  | .aux => { n with auxEvent := some d }
  | .ex => { n with exEvent := some d }

/-- `is_scheduled`. -/
def isScheduled (n : EventNode) (evType : WaitType) : Bool :=
  if evType = .exception then n.exEvent.any EventData.live
  else if n.mainEvType = .empty then false
  else if n.mainIs evType then n.mainEvent.live
  else n.auxEvent.any EventData.live

/-- The pending event of a wait type: its storage exists and is in use. -/
def pending (n : EventNode) (wt : WaitType) : Option EventData :=
  ((n.getEvtData wt).bind n.deref).filter EventData.live

/-- The test of `iosvc_dequeue` whether the inline storage is free for either type. -/
def rdWrVacant (n : EventNode) : Bool :=
  !n.mainEvent.live && !n.auxEvent.any EventData.live

end EventNode

/-! ### Allocation -/

/-- The allocator: attempt `k` to allocate succeeds when `ok k`, and then returns the
address `k`, so that no address is handed out twice. -/
structure Alloc where
  ok : ℕ → Bool
  next : ℕ

/-- `malloc`, `calloc` or `realloc` to a new block: the pointer, `NULL` on failure. -/
def Alloc.malloc (al : Alloc) : Ptr × Alloc :=
  (if al.ok al.next then some al.next else none, { al with next := al.next + 1 })

/-- `reserve_rd_wr`: storage for a read or write event in a node, `none` for `NULL`. -/
def reserveRdWr (al : Alloc) (n : EventNode) (requested : WaitType) :
    Alloc × EventNode × Option EvtSlot :=
  if n.mainEvType = .empty then
    (al, { n with mainEvType := if requested = .read then .read else .write }, some .main)
  else if n.mainIs requested then (al, n, some .main)
  else match n.auxEvent with
  | some _ => (al, n, some .aux)
  | none =>
      -- a vacated exception block may be taken over
      if n.exEvent.isSome && !n.exEvent.any EventData.live then
        (al, { n with auxEvent := n.exEvent, exEvent := none }, some .aux)
      else match al.malloc with
      | (none, al) => (al, n, none)
      | (some _, al) => (al, { n with auxEvent := some .zero }, some .aux)

/-- The exception branch of `reserve_evt_mem`. -/
def reserveEx (al : Alloc) (n : EventNode) : Alloc × EventNode × Option EvtSlot :=
  match n.exEvent with
  | some _ => (al, n, some .ex)
  | none =>
      -- a vacated aux block may be taken over
      if n.auxEvent.isSome && !n.auxEvent.any EventData.live then
        (al, { n with exEvent := n.auxEvent, auxEvent := none }, some .ex)
      else match al.malloc with
      | (none, al) => (al, n, none)
      | (some _, al) => (al, { n with exEvent := some .zero }, some .ex)

/-- The storage that `reserve_evt_mem` finds in a node. -/
def reserveSlot (al : Alloc) (n : EventNode) (evType : WaitType) :
    Alloc × EventNode × Option EvtSlot :=
  if evType = .exception then reserveEx al n else reserveRdWr al n evType

/-! ### Arrays -/

/-- `dynarray`: its elements, its capacity, and the block that holds them. -/
structure DynArray (α : Type) where
  data : List α
  capacity : ℕ
  block : Addr

namespace DynArray

variable {α : Type}

/-- `dynarr_init`. -/
def init : DynArray α := ⟨[], 0, 0⟩

/-- `dynarr_emplace_back`: a new last element with indeterminate contents; at full
capacity the array moves to a new block of twice the size. -/
def emplaceBack [Inhabited α] (dar : DynArray α) (al : Alloc) :
    Option (DynArray α) × Alloc :=
  if dar.data.length = dar.capacity then
    match al.malloc with
    | (none, al) => (none, al)
    | (some block, al) =>
        (some ⟨dar.data ++ [default], max (2 * dar.capacity) 1, block⟩, al)
  else (some { dar with data := dar.data ++ [default] }, al)

/-- `dynarr_pop_back`. -/
def popBack (dar : DynArray α) : DynArray α :=
  { dar with data := dar.data.dropLast }

/-- `dynarr_clear`. -/
def clear (dar : DynArray α) : DynArray α :=
  { dar with data := [] }

/-- Assignment to an element. -/
def set (dar : DynArray α) (i : ℕ) (x : α) : DynArray α :=
  { dar with data := dar.data.set i x }

end DynArray

/-- `cbuffer` as a queue with a capacity. -/
structure CBuffer (α : Type) where
  elems : List α
  capacity : ℕ

namespace CBuffer

variable {α : Type}

/-- `cbuf_init`. -/
def init : CBuffer α := ⟨[], 0⟩

/-- `cbuf_push` and the assignment to the slot it returns; a full buffer moves to a block
of twice the size. -/
def push (buf : CBuffer α) (x : α) (al : Alloc) : Option (CBuffer α) × Alloc :=
  if buf.elems.length = buf.capacity then
    match al.malloc with
    | (none, al) => (none, al)
    | (some _, al) => (some ⟨buf.elems ++ [x], max 1 (2 * buf.capacity)⟩, al)
  else (some { buf with elems := buf.elems ++ [x] }, al)

/-- `cbuf_pop`. -/
def pop (buf : CBuffer α) : CBuffer α :=
  { buf with elems := buf.elems.tail }

end CBuffer

end IoEngine
