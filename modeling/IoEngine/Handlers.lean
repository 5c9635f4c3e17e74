import IoEngine.Service

/-!
# Handlers and Cancellation

A handler is the user's code. What it can do to the service is a finite sequence of public
calls, and this is what a `Script` records: the calls, the time that passes between them,
and what the user stores in the variables that the service was given pointers to. A
cancelling call runs the cancelled event's handler at once, inside the call; the script
has that handler's own behaviour beside the call.

A handler runs inside `iosvc_run` only, where the status is never `READY`, so a nested
`iosvc_run` returns at its first test (`runRefused`).
-/

namespace IoEngine

open FdTree Svc

variable {τ π : Type} [FdTree τ π]

/-- A public call of a handler. A wait type given to `iosvc_cancel`, which does not check
it, is one of the three constants. -/
inductive ApiCall
  | post (hnd : IoHandler)
  | postDelay (hnd : IoHandler) (status : Ptr) (milliseconds : Int32)
  | sched (event : IoEvent) (hnd : IoHandler) (status : Ptr)
  | schedTimeout (event : IoEvent) (hnd : IoHandler) (status : Ptr) (milliseconds : Addr)
  | cancel (fd : ℤ) (wt : WaitType)
  | stop
  | reset
  | run

/-- What a handler does from its start to its return. -/
inductive Script
  | ret
  /-- time passes -/
  | tick (dt : ℕ) (rest : Script)
  /-- the user's variables get new values -/
  | user (ints : Addr → Int32) (errs : Addr → IoErrcode) (rest : Script)
  /-- a call; `inner` is what the handler called by it does, if there is one -/
  | call (c : ApiCall) (inner rest : Script)

/-- Call a handler, whose body is `body`; a `NULL` callback is an error. -/
def invoke (body : Svc τ → Option (Svc τ)) (cause : Cause) (hnd : IoHandler) (s : Svc τ) :
    Option (Svc τ) :=
  match hnd.callback with
  | none => none
  | some _ => body (s.note (.invoked cause hnd s.clock s.ints s.errs))

/-- The end of `iosvc_cancel`: the node found through the slot and its `pollfd` are removed
when no event is left. -/
def finishCancel (s : Svc τ) (place : π) : Option (Svc τ) := do
  let b ← ← load s.asyncHandlers place
  let n ← s.nodes b
  let pollent ← s.pollfds.data[n.pollfdIdx]?
  if pollent.events = 0 then ioevtCleanupEvt s place else some s

/-- `iosvc_cancel`; `body` is what the cancelled event's handler does. -/
def iosvcCancel (body : Svc τ → Option (Svc τ)) (s : Svc τ) (fd : ℤ) (wt : WaitType) :
    Option (IoErrcode × Svc τ) :=
  if s.status ≠ .running then some (.invarg, s)
  else do
    let place ← rbProbe s.asyncHandlers fd
    match ← load s.asyncHandlers place with
    | none => some (.noentry, s)
    | some a =>
        let n ← s.nodes a
        if ((n.getEvtData wt).bind n.deref).any EventData.live then
          let (hnd, s) ← iosvcDequeue s a wt 0 .cancelled
          let s ← invoke body (.event fd wt .cancelled 0) hnd s
          let s ← finishCancel s place
          some (.ok, s)
        else some (.noentry, s)

/-- The first test of `iosvc_run`: the code it returns when the status is not `READY`. -/
def runRefused (s : Svc τ) : Option IoErrcode :=
  match s.status with
  | .ready => none
  | .done => some .invarg
  | _ => some .inprogress

/-- Make a call; its code and the new state. -/
def apiCall (body : Svc τ → Option (Svc τ)) (s : Svc τ) : ApiCall → Option (IoErrcode × Svc τ)
  | .post hnd => some (iosvcPost s hnd)
  | .postDelay hnd status ms => iosvcPostDelay s hnd status ms
  | .sched event hnd status => iosvcSched s event hnd status
  | .schedTimeout event hnd status ms => iosvcSchedTimeout s event hnd status ms
  | .cancel fd wt => iosvcCancel body s fd wt
  | .stop => some (iosvcStop s)
  | .reset => some (iosvcReset s)
  | .run => (runRefused s).map fun code => (code, s)

/-- Run a handler's script. -/
def exec : Script → Svc τ → Option (Svc τ)
  | .ret, s => some s
  | .tick dt rest, s => exec rest { s with clock := s.clock + dt }
  | .user ints errs rest, s => exec rest { s with ints := ints, errs := errs }
  | .call c inner rest, s => do
      let (_, s) ← apiCall (exec inner) s c
      exec rest s

/-- What every handler does when it is called in a given state. -/
abbrev Behaviour (τ : Type) := IoHandler → Svc τ → Script

/-- `hnd.callback(hnd.ctx)`. -/
def callHandler (beh : Behaviour τ) (cause : Cause) (hnd : IoHandler) (s : Svc τ) :
    Option (Svc τ) :=
  invoke (fun s => exec (beh hnd s) s) cause hnd s

end IoEngine
