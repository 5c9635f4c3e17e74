import IoEngine.AsyncRdWr
import IoEngine.Lib.Ownership

/-!
# Operations and Their Contexts

`async_net.c`, and what it shares with `async_rdwr.c`: an operation allocates a context, gives
the service a handler with the context as its argument, and the context is freed when the user's
handler has returned. Any number of operations may be under way, in any service, and the user's
handlers start more of them. An address that was freed may be handed out again.

`OpStep` is the system of all operations: one is started, the service calls a handler that it has
accepted, the user's handler returns. What the service accepts is read from its log. Following a
pointer to a context that is not live, or that is not of the handler's own type, fails.

## Main results

* `OpsSound.step`: **every step** leaves each live context with exactly one owner.
* `OpCtx.complete_returns`: **every completion returns** when no pointer that it follows is `NULL`,
  and brings the call of the user's handler nearer.
* `operations_sound`: **over every run** no context is used or freed when it is gone, an operation
  that was accepted has had its user's handler called once or is scheduled, and the contexts that
  stay are those of the operations that the service refused.
-/

open Ownership

namespace IoEngine

open FdTree Svc

/-! ### `async_net.c` -/

/-- `accept_impl` as the function pointer that the service is given. -/
def acceptImplPtr : ℕ := 3

/-- `connect_impl`, likewise. -/
def connectImplPtr : ℕ := 4

/-- `accept_ctx`. -/
structure AcceptCtx where
  listenSock : ℤ
  addr : Ptr
  addrlen : Ptr
  hnd : IoHandler
  newSock : Ptr
  errc : Ptr

/-- `conn_ctx`. -/
structure ConnCtx where
  sockfd : ℤ
  hnd : IoHandler
  errc : Ptr

/-- **What the system calls return**, where they are made. -/
structure SysCalls where
  /-- `read` or `write` -/
  transfer : ℤ
  /-- the bytes that `read` delivers -/
  input : ℕ → UInt8
  accept : Int32
  getsockopt : ℤ
  /-- the `SO_ERROR` that `getsockopt` delivers -/
  soError : ℤ
  /-- `fcntl` with `F_GETFL` and with `F_SETFL` -/
  getfl : ℤ
  setfl : ℤ
  connect : ℤ
  /-- `errno` is `EINPROGRESS` after `connect` -/
  inProgress : Bool

section

variable {τ π : Type}

/-- `accept_impl`, to the start of the user's handler. -/
def acceptImpl (s : Svc τ) (ctx : AcceptCtx) (sys : SysCalls) : Option (Svc τ) := do
  let errc ← ctx.errc
  if s.errs errc = .ok then
    let newSock ← ctx.newSock
    let s := s.setInt newSock sys.accept
    let s := if s.ints newSock < 0 then s.signal (some errc) .syserr else s
    ctx.hnd.callback.map fun _ => s
  else ctx.hnd.callback.map fun _ => s

/-- `connect_impl`, to the start of the user's handler. -/
def connectImpl (s : Svc τ) (ctx : ConnCtx) (sys : SysCalls) : Option (Svc τ) := do
  let errc ← ctx.errc
  if s.errs errc = .ok then
    let s := if sys.getsockopt ≠ 0 ∨ sys.soError ≠ 0 then s.signal (some errc) .syserr else s
    ctx.hnd.callback.map fun _ => s
  else ctx.hnd.callback.map fun _ => s

variable [FdTree τ π]

/-- `async_accept`: the returned code, and the context with its address if it was allocated. -/
def asyncAccept (s : Svc τ) (listenSock : ℤ) (addr addrlen : Ptr) (hnd : IoHandler)
    (newSock errc : Ptr) : Option (IoErrcode × Svc τ × Option (Addr × AcceptCtx)) :=
  match s.alloc.malloc with
  | (none, al) => some (.nomem, { s with alloc := al }, none)
  | (some arg, al) => do
      let ctx : AcceptCtx := ⟨listenSock, addr, addrlen, hnd, newSock, errc⟩
      let (code, s) ← iosvcSched { s with alloc := al } ⟨listenSock, some .read⟩
        ⟨some acceptImplPtr, arg⟩ errc
      some (code, s, some (arg, ctx))

/-- `async_connect`: the returned code, and the context with its address if it was allocated and
not freed again. -/
def asyncConnect (s : Svc τ) (sockfd : ℤ) (hnd : IoHandler) (errc : Ptr) (sys : SysCalls) :
    Option (IoErrcode × Svc τ × Option (Addr × ConnCtx)) :=
  if sys.getfl = -1 then some (.syserr, s, none)
  else if sys.setfl = -1 then some (.syserr, s, none)
  else match s.alloc.malloc with
  | (none, al) => some (.nomem, { s with alloc := al }, none)
  | (some arg, al) =>
      let ctx : ConnCtx := ⟨sockfd, hnd, errc⟩
      if sys.connect = -1 ∧ sys.inProgress = false then some (.syserr, { s with alloc := al }, none)
      else do
        let (code, s) ← iosvcSched { s with alloc := al } ⟨sockfd, some .write⟩
          ⟨some connectImplPtr, arg⟩ errc
        some (code, s, some (arg, ctx))

/-! ### Operations -/

/-- A context. -/
inductive OpCtx
  | rwSome (ctx : RwCtx)
  | rw (ctx : RwCtx)
  | accept (ctx : AcceptCtx)
  | conn (ctx : ConnCtx)

namespace OpCtx

/-- The user's handler. -/
def hnd : OpCtx → IoHandler
  | .rwSome ctx | .rw ctx => ctx.hnd
  | .accept ctx => ctx.hnd
  | .conn ctx => ctx.hnd

/-- The function that takes a context of this type. -/
def implCallback : OpCtx → ℕ
  | .rwSome _ => rwSomeImplPtr
  | .rw _ => rwImplPtr
  | .accept _ => acceptImplPtr
  | .conn _ => connectImplPtr

/-- The handler that the service is given. -/
def handler (ctx : OpCtx) (arg : Addr) : IoHandler := ⟨some ctx.implCallback, arg⟩

/-- No pointer that the completion of an event follows is `NULL`. -/
def usable : OpCtx → Bool
  | .rwSome ctx | .rw ctx =>
      ctx.hnd.callback.isSome && ctx.errc.isSome && ctx.transferred.isSome
  | .accept ctx => ctx.hnd.callback.isSome && ctx.errc.isSome && ctx.newSock.isSome
  | .conn ctx => ctx.hnd.callback.isSome && ctx.errc.isSome

/-- How many bytes have still to be moved before the user's handler is called. -/
def left : OpCtx → ℕ
  | .rw ctx => ctx.nbytes
  | .rwSome _ | .accept _ | .conn _ => 0

/-- `iosvc_sched` returns, if the operation may go on with a further event. -/
def Answered (s : Svc τ) (arg : Addr) : OpCtx → Prop
  | .rw ctx =>
      (iosvcSched s ⟨ctx.fd, some ctx.opType⟩ ⟨some rwImplPtr, arg⟩ ctx.errc).isSome = true
  | .rwSome _ | .accept _ | .conn _ => True

end OpCtx

/-- A call that starts an operation: `async_read_some` or `async_write_some`, `async_read` or
`async_write`, `async_accept`, `async_connect`. -/
inductive Operation
  | rwSome (write : Bool) (fd : ℤ) (buf nbytes : ℕ) (hnd : IoHandler) (transferred errc : Ptr)
  | rw (write : Bool) (fd : ℤ) (buf nbytes : ℕ) (hnd : IoHandler) (transferred errc : Ptr)
  | accept (listenSock : ℤ) (addr addrlen : Ptr) (hnd : IoHandler) (newSock errc : Ptr)
  | connect (sockfd : ℤ) (hnd : IoHandler) (errc : Ptr)

/-- The user's handler. -/
def Operation.hnd : Operation → IoHandler
  | .rwSome _ _ _ _ hnd _ _ | .rw _ _ _ _ hnd _ _ => hnd
  | .accept _ _ _ hnd _ _ => hnd
  | .connect _ hnd _ => hnd

/-- `async_read_some` or `async_write_some`. -/
def asyncRwSome (write : Bool) (s : Svc τ) (m : UserMem) (fd : ℤ) (buf nbytes : ℕ)
    (hnd : IoHandler) (transferred errc : Ptr) :
    Option (IoErrcode × Svc τ × UserMem × Option (Addr × RwCtx)) :=
  if write then asyncWriteSome s m fd buf nbytes hnd transferred errc
  else asyncReadSome s m fd buf nbytes hnd transferred errc

/-- Start an operation. -/
def Operation.start (s : Svc τ) (m : UserMem) (sys : SysCalls) :
    Operation → Option (IoErrcode × Svc τ × Option (Addr × OpCtx))
  | .rwSome write fd buf nbytes hnd transferred errc => do
      let (code, s, _, ctx) ← asyncRwSome write s m fd buf nbytes hnd transferred errc
      some (code, s, ctx.map fun x => (x.1, .rwSome x.2))
  | .rw write fd buf nbytes hnd transferred errc => do
      let (code, s, _, ctx) ← asyncRw write s m fd buf nbytes hnd transferred errc
      some (code, s, ctx.map fun x => (x.1, .rw x.2))
  | .accept listenSock addr addrlen hnd newSock errc => do
      let (code, s, ctx) ← asyncAccept s listenSock addr addrlen hnd newSock errc
      some (code, s, ctx.map fun x => (x.1, .accept x.2))
  | .connect sockfd hnd errc => do
      let (code, s, ctx) ← asyncConnect s sockfd hnd errc sys
      some (code, s, ctx.map fun x => (x.1, .conn x.2))

/-- The service calls a handler with the address of a context: the context afterwards, and
whether the user's handler has been called. -/
def OpCtx.complete (s : Svc τ) (m : UserMem) (sys : SysCalls) (hnd : IoHandler) (ctx : OpCtx) :
    Option (Svc τ × OpCtx × Bool) :=
  if hnd.callback ≠ some ctx.implCallback then none
  else match ctx with
  | .rwSome ctx => do
      let o ← rwSomeImpl s ctx m sys.transfer sys.input
      some (o.svc, .rwSome o.ctx, o.called)
  | .rw ctx => do
      let o ← rwImpl s hnd.ctx ctx m sys.transfer sys.input
      some (o.svc, .rw o.ctx, o.called)
  | .accept ctx => do
      let s ← acceptImpl s ctx sys
      some (s, .accept ctx, true)
  | .conn ctx => do
      let s ← connectImpl s ctx sys
      some (s, .conn ctx, true)

/-! ### What the service accepts -/

/-- The handler of an event that was accepted. -/
def Obs.acceptedHandler : Obs → Option IoHandler
  | .accepted (.event _ _ hnd _) _ => some hnd
  | _ => none

/-- The handlers of the events that a service has accepted since it was in the state `s`. -/
def acceptedSince (s s' : Svc τ) : List IoHandler :=
  (s'.log.take (s'.log.length - s.log.length)).filterMap Obs.acceptedHandler

omit [FdTree τ π] in

/-- The handlers accepted since are those of the new part of the log. -/
theorem acceptedSince_of_append {s s' : Svc τ} {l : List Obs} (h : s'.log = l ++ s.log) :
    acceptedSince s s' = l.filterMap Obs.acceptedHandler := by
  rw [acceptedSince, h, List.length_append, Nat.add_sub_cancel, List.take_left]

omit [FdTree τ π] in

/-- With the same log nothing was accepted since. -/
theorem acceptedSince_of_log_eq {s s' : Svc τ} (h : s'.log = s.log) : acceptedSince s s' = [] :=
  acceptedSince_of_append (l := []) h

/-- **What `iosvc_sched` accepts** is its handler, if it returns `EIO_OK`. -/
theorem acceptedSince_sched {s s₀ s' : Svc τ} {fd : ℤ} {wt : WaitType} {hnd : IoHandler}
    {status : Ptr} {code : IoErrcode}
    (h : iosvcSched s₀ ⟨fd, some wt⟩ hnd status = some (code, s')) (hlog : s₀.log = s.log) :
    acceptedSince s s' = if code = .ok then [hnd] else [] := by
  have hnew := sched_log h
  rw [hlog] at hnew
  rw [acceptedSince_of_append hnew]
  split <;> rfl

omit [FdTree τ π] in

/-- Setting a status variable writes nothing to the log. -/
@[simp] theorem signal_log (s : Svc τ) (status : Ptr) (code : IoErrcode) :
    (s.signal status code).log = s.log := by
  rw [signal_eq]

/-! ### The functions, as the system sees them -/

/-- What a call that starts an operation comes to: there is a context when the service was asked,
and the service has accepted the handler with it when it has agreed. -/
def Starts (s s' : Svc τ) (code : IoErrcode) (user : IoHandler) : Option (Addr × OpCtx) → Prop
  | none => code ≠ .ok ∧ acceptedSince s s' = []
  | some (arg, ctx) =>
      ctx.hnd = user ∧ acceptedSince s s' = if code = .ok then [ctx.handler arg] else []

section

variable {s s' : Svc τ} {m m' : UserMem} {sys : SysCalls} {code : IoErrcode} {hnd : IoHandler}

/-- **The transfers** start as every operation does. -/
theorem asyncRwSched_starts {fd : ℤ} {buf n : ℕ} {transferred errc : Ptr} {wt : WaitType}
    {impl : ℕ} {ctx : Option (Addr × RwCtx)} {mk : RwCtx → OpCtx}
    (himpl : ∀ c, (mk c).implCallback = impl) (hhnd : ∀ c, (mk c).hnd = c.hnd)
    (h : asyncRwSched s m fd buf n hnd transferred errc wt impl = some (code, s', m', ctx)) :
    Starts s s' code hnd (ctx.map fun x => (x.1, mk x.2)) := by
  rw [asyncRwSched] at h
  split at h
  next =>
    cases h
    exact ⟨by simp, acceptedSince_of_log_eq rfl⟩
  next =>
    obtain ⟨p, hp, h⟩ := Option.bind_eq_some_iff.mp h
    obtain ⟨⟨c, s₁⟩, hsched, h⟩ := Option.bind_eq_some_iff.mp h
    cases h
    simp only [Option.map_some, Starts, OpCtx.handler, himpl, hhnd, true_and]
    exact acceptedSince_sched hsched rfl

/-- **Starting an operation.** -/
theorem Operation.start_spec {op : Operation} {ctx : Option (Addr × OpCtx)}
    (h : op.start s m sys = some (code, s', ctx)) : Starts s s' code op.hnd ctx := by
  cases op with
  | rwSome write fd buf n hnd transferred errc =>
      obtain ⟨⟨c, s₁, m₁, ctx₁⟩, hrun, h⟩ := Option.bind_eq_some_iff.mp h
      cases h
      cases write <;> exact asyncRwSched_starts (fun _ => rfl) (fun _ => rfl) hrun
  | rw write fd buf n hnd transferred errc =>
      obtain ⟨⟨c, s₁, m₁, ctx₁⟩, hrun, h⟩ := Option.bind_eq_some_iff.mp h
      cases h
      cases write <;> exact asyncRwSched_starts (fun _ => rfl) (fun _ => rfl) hrun
  | accept listenSock addr addrlen hnd newSock errc =>
      obtain ⟨⟨c, s₁, ctx₁⟩, hrun, h⟩ := Option.bind_eq_some_iff.mp h
      cases h
      rw [asyncAccept] at hrun
      split at hrun
      next =>
        cases hrun
        exact ⟨by simp, acceptedSince_of_log_eq rfl⟩
      next =>
        obtain ⟨⟨c, s₂⟩, hsched, hrun⟩ := Option.bind_eq_some_iff.mp hrun
        cases hrun
        exact ⟨rfl, acceptedSince_sched hsched rfl⟩
  | connect sockfd hnd errc =>
      obtain ⟨⟨c, s₁, ctx₁⟩, hrun, h⟩ := Option.bind_eq_some_iff.mp h
      cases h
      rw [asyncConnect] at hrun
      split at hrun
      · cases hrun
        exact ⟨by simp, acceptedSince_of_log_eq rfl⟩
      split at hrun
      · cases hrun
        exact ⟨by simp, acceptedSince_of_log_eq rfl⟩
      split at hrun
      · cases hrun
        exact ⟨by simp, acceptedSince_of_log_eq rfl⟩
      split at hrun
      next =>
        -- the context is freed: `connect` has failed
        cases hrun
        exact ⟨by simp, acceptedSince_of_log_eq rfl⟩
      next =>
        obtain ⟨⟨c, s₂⟩, hsched, hrun⟩ := Option.bind_eq_some_iff.mp hrun
        cases hrun
        exact ⟨rfl, acceptedSince_sched hsched rfl⟩

/-- What a completion comes to: the context stays one for the same user's handler and the same
function, and the service has accepted the next event just when the user's handler is not called. -/
structure Completes (s s' : Svc τ) (hnd : IoHandler) (ctx ctx' : OpCtx) (called : Bool) : Prop where
  impl : ctx'.implCallback = ctx.implCallback
  user : ctx'.hnd = ctx.hnd
  accepted : acceptedSince s s' = if called then [] else [hnd]

omit [FdTree τ π] in

/-- A call of the user's callback keeps the context and the log. -/
theorem callUser_completes {s₁ : Svc τ} {ctx : RwCtx} {o : RwOutcome τ} (hlog : s₁.log = s.log)
    (h : callUser s₁ ctx m = some o) : o.ctx = ctx ∧ o.called = true ∧ o.svc.log = s.log := by
  obtain ⟨f, -, rfl⟩ := Option.map_eq_some_iff.mp h
  exact ⟨rfl, rfl, hlog⟩

omit [FdTree τ π] in

/-- **A transfer of one batch** calls the user and schedules nothing. -/
theorem rwSomeImpl_completes {ctx : RwCtx} {o : RwOutcome τ} {ret : ℤ} {input : ℕ → UInt8}
    (h : rwSomeImpl s ctx m ret input = some o) :
    Completes s o.svc hnd (.rwSome ctx) (.rwSome o.ctx) o.called := by
  have hout : o.ctx.hnd = ctx.hnd ∧ o.called = true ∧ o.svc.log = s.log := by
    obtain ⟨errc, -, h⟩ := Option.bind_eq_some_iff.mp h
    dsimp only at h
    split at h
    next =>
      obtain ⟨p, -, h⟩ := Option.bind_eq_some_iff.mp h
      split at h
      · obtain ⟨hctx, hrest⟩ := callUser_completes (signal_log ..) h
        exact ⟨by rw [hctx]; rfl, hrest⟩
      · obtain ⟨hctx, hrest⟩ := callUser_completes rfl h
        exact ⟨by rw [hctx]; rfl, hrest⟩
    next =>
      obtain ⟨hctx, hrest⟩ := callUser_completes rfl h
      exact ⟨by rw [hctx], hrest⟩
  refine ⟨rfl, hout.1, ?_⟩
  rw [hout.2.1, if_pos rfl]
  exact acceptedSince_of_log_eq hout.2.2

/-- The chain of `rw_impl` ends with the user's handler, or goes on with a further event. -/
theorem rwContinue_completes {s₁ : Svc τ} {ctx : RwCtx} {arg : Addr} {o : RwOutcome τ}
    (hlog : s₁.log = s.log) (h : rwContinue s₁ arg ctx m = some o) :
    o.ctx = ctx ∧ acceptedSince s o.svc = if o.called then [] else [⟨some rwImplPtr, arg⟩] := by
  rw [rwContinue] at h
  split at h
  next =>
    obtain ⟨⟨code, s₂⟩, hsched, h⟩ := Option.bind_eq_some_iff.mp h
    have hacc := acceptedSince_sched hsched hlog
    dsimp only at h
    split at h
    next hcode =>
      rw [if_neg hcode] at hacc
      obtain ⟨hctx, hcalled, hlog₂⟩ := callUser_completes (signal_log ..) h
      refine ⟨hctx, ?_⟩
      rw [hcalled, if_pos rfl, acceptedSince, hlog₂]
      exact hacc
    next hcode =>
      obtain rfl := Option.some.inj h
      rw [if_pos (not_not.mp hcode)] at hacc
      exact ⟨rfl, hacc⟩
  next =>
    obtain ⟨hctx, hcalled, hlog₂⟩ := callUser_completes hlog h
    exact ⟨hctx, by rw [hcalled, if_pos rfl]; exact acceptedSince_of_log_eq hlog₂⟩

/-- **A transfer of many batches** calls the user or schedules itself. -/
theorem rwImpl_completes {ctx : RwCtx} {arg : Addr} {o : RwOutcome τ} {ret : ℤ}
    {input : ℕ → UInt8} (h : rwImpl s arg ctx m ret input = some o) :
    Completes s o.svc ⟨some rwImplPtr, arg⟩ (.rw ctx) (.rw o.ctx) o.called := by
  obtain ⟨errc, -, h⟩ := Option.bind_eq_some_iff.mp h
  dsimp only at h
  split at h
  next =>
    split at h
    next =>
      obtain ⟨hctx, hcalled, hlog⟩ := callUser_completes (signal_log ..) h
      refine ⟨rfl, by rw [hctx]; rfl, ?_⟩
      rw [hcalled, if_pos rfl]
      exact acceptedSince_of_log_eq hlog
    next =>
      obtain ⟨p, -, h⟩ := Option.bind_eq_some_iff.mp h
      obtain ⟨hctx, hacc⟩ := rwContinue_completes rfl h
      exact ⟨rfl, by rw [hctx]; rfl, hacc⟩
  next =>
    obtain ⟨hctx, hcalled, hlog⟩ := callUser_completes rfl h
    refine ⟨rfl, by rw [hctx], ?_⟩
    rw [hcalled, if_pos rfl]
    exact acceptedSince_of_log_eq hlog

omit [FdTree τ π] in

/-- Completing an `async_accept` writes nothing to the log. -/
theorem acceptImpl_log {ctx : AcceptCtx} (h : acceptImpl s ctx sys = some s') :
    s'.log = s.log := by
  obtain ⟨errc, -, h⟩ := Option.bind_eq_some_iff.mp h
  dsimp only at h
  split at h
  · obtain ⟨p, -, h⟩ := Option.bind_eq_some_iff.mp h
    obtain ⟨f, -, rfl⟩ := Option.map_eq_some_iff.mp h
    split
    · exact signal_log ..
    · rfl
  · obtain ⟨f, -, rfl⟩ := Option.map_eq_some_iff.mp h
    rfl

omit [FdTree τ π] in

/-- Completing an `async_connect` writes nothing to the log. -/
theorem connectImpl_log {ctx : ConnCtx} (h : connectImpl s ctx sys = some s') :
    s'.log = s.log := by
  obtain ⟨errc, -, h⟩ := Option.bind_eq_some_iff.mp h
  dsimp only at h
  split at h
  · obtain ⟨f, -, rfl⟩ := Option.map_eq_some_iff.mp h
    split
    · exact signal_log ..
    · rfl
  · obtain ⟨f, -, rfl⟩ := Option.map_eq_some_iff.mp h
    rfl

/-- **Completing an event of an operation.** -/
theorem OpCtx.complete_spec {ctx ctx' : OpCtx} {called : Bool}
    (h : ctx.complete s m sys hnd = some (s', ctx', called)) :
    hnd.callback = some ctx.implCallback ∧ Completes s s' hnd ctx ctx' called := by
  unfold complete at h
  split at h
  · cases h
  next hcb =>
    have hcb := not_not.mp hcb
    refine ⟨hcb, ?_⟩
    cases ctx with
    | rwSome ctx =>
        obtain ⟨o, ho, h⟩ := Option.bind_eq_some_iff.mp h
        cases h
        exact rwSomeImpl_completes ho
    | rw ctx =>
        obtain ⟨o, ho, h⟩ := Option.bind_eq_some_iff.mp h
        cases h
        have hhnd : hnd = ⟨some rwImplPtr, hnd.ctx⟩ := by
          cases hnd
          cases hcb
          rfl
        rw [hhnd]
        exact rwImpl_completes ho
    | accept ctx =>
        obtain ⟨s₁, hs₁, h⟩ := Option.bind_eq_some_iff.mp h
        cases h
        exact ⟨rfl, rfl, acceptedSince_of_log_eq (acceptImpl_log hs₁)⟩
    | conn ctx =>
        obtain ⟨s₁, hs₁, h⟩ := Option.bind_eq_some_iff.mp h
        cases h
        exact ⟨rfl, rfl, acceptedSince_of_log_eq (connectImpl_log hs₁)⟩

omit [FdTree τ π] in

/-- A callback that is not NULL is called. -/
theorem callUser_returns (s : Svc τ) {ctx : RwCtx} (m : UserMem)
    (hcb : ctx.hnd.callback.isSome = true) : ∃ o, callUser s ctx m = some o ∧ o.called = true := by
  obtain ⟨f, hf⟩ := Option.isSome_iff_exists.mp hcb
  exact ⟨⟨s, ctx, m, true⟩, by rw [callUser, hf, Option.map_some], rfl⟩

omit [FdTree τ π] in

/-- **A transfer of one batch** returns when it follows no NULL pointer. -/
theorem rwSomeImpl_returns {ctx : RwCtx} (hok : (OpCtx.rwSome ctx).usable = true) (m : UserMem)
    (ret : ℤ) (input : ℕ → UInt8) :
    ∃ o, rwSomeImpl s ctx m ret input = some o ∧ o.called = true := by
  simp only [OpCtx.usable, Bool.and_eq_true] at hok
  obtain ⟨⟨hcb, herrc⟩, htr⟩ := hok
  obtain ⟨errc, herrc⟩ := Option.isSome_iff_exists.mp herrc
  obtain ⟨p, hp⟩ := Option.isSome_iff_exists.mp htr
  have hp' : (ctx.noteMoved (ctx.transferMem m ret input) ret).transferred = some p := hp
  simp only [rwSomeImpl, herrc, hp', bind, Option.bind_some]
  split
  · split
    · exact callUser_returns _ _ hcb
    · exact callUser_returns _ _ hcb
  · exact callUser_returns _ _ hcb

/-- The chain of `rw_impl` ends, or has fewer bytes to move, by those that were moved. -/
theorem rwImpl_progress {ctx : RwCtx} {arg : Addr} {o : RwOutcome τ} {ret : ℤ}
    {input : ℕ → UInt8} (h : rwImpl s arg ctx m ret input = some o) :
    o.called = true ∨ (OpCtx.rw o.ctx).usable = (OpCtx.rw ctx).usable ∧
      o.ctx.nbytes < ctx.nbytes := by
  obtain ⟨errc, -, h⟩ := Option.bind_eq_some_iff.mp h
  dsimp only at h
  split at h
  next =>
    split at h
    next => exact .inl (callUser_completes (signal_log ..) h).2.1
    next hpos =>
      obtain ⟨p, -, h⟩ := Option.bind_eq_some_iff.mp h
      obtain ⟨hctx, -⟩ := rwContinue_completes rfl h
      rw [rwContinue] at h
      split at h
      next hmore =>
        -- a byte was moved, and there was more than one
        have hleft : 0 < ctx.nbytes - ret.toNat := hmore
        refine .inr ⟨by rw [hctx]; rfl, ?_⟩
        rw [hctx]
        show ctx.nbytes - ret.toNat < ctx.nbytes
        omega
      next => exact .inl (callUser_completes rfl h).2.1
  next => exact .inl (callUser_completes rfl h).2.1

omit [FdTree τ π] in

/-- Completing an `async_accept` returns when it follows no NULL pointer. -/
theorem acceptImpl_returns (s : Svc τ) (sys : SysCalls) {ctx : AcceptCtx}
    (hok : (OpCtx.accept ctx).usable = true) :
    ∃ s', acceptImpl s ctx sys = some s' := by
  simp only [OpCtx.usable, Bool.and_eq_true] at hok
  obtain ⟨⟨hcb, herrc⟩, hsock⟩ := hok
  obtain ⟨f, hf⟩ := Option.isSome_iff_exists.mp hcb
  obtain ⟨errc, herrc⟩ := Option.isSome_iff_exists.mp herrc
  obtain ⟨newSock, hsock⟩ := Option.isSome_iff_exists.mp hsock
  simp only [acceptImpl, herrc, hsock, hf, bind, Option.bind_some, Option.map_some]
  split
  · exact ⟨_, rfl⟩
  · exact ⟨_, rfl⟩

omit [FdTree τ π] in

/-- Completing an `async_connect` returns when it follows no NULL pointer. -/
theorem connectImpl_returns (s : Svc τ) (sys : SysCalls) {ctx : ConnCtx}
    (hok : (OpCtx.conn ctx).usable = true) :
    ∃ s', connectImpl s ctx sys = some s' := by
  simp only [OpCtx.usable, Bool.and_eq_true] at hok
  obtain ⟨hcb, herrc⟩ := hok
  obtain ⟨f, hf⟩ := Option.isSome_iff_exists.mp hcb
  obtain ⟨errc, herrc⟩ := Option.isSome_iff_exists.mp herrc
  simp only [connectImpl, herrc, hf, bind, Option.bind_some, Option.map_some]
  split
  · exact ⟨_, rfl⟩
  · exact ⟨_, rfl⟩

/-- **A completion returns**, whatever the status and the system call say, and calls the user's
handler or leaves fewer bytes to be moved. -/
theorem OpCtx.complete_returns {ctx : OpCtx} (hcb : hnd.callback = some ctx.implCallback)
    (hok : ctx.usable = true) (hans : ctx.Answered s hnd.ctx) (m : UserMem) (sys : SysCalls) :
    ∃ s' ctx' called, ctx.complete s m sys hnd = some (s', ctx', called) ∧
      (called = true ∨ ctx'.usable = true ∧ ctx'.left < ctx.left) := by
  have hself : ¬ (hnd.callback ≠ some ctx.implCallback) := not_not.mpr hcb
  unfold complete
  rw [if_neg hself]
  cases ctx with
  | rwSome ctx =>
      obtain ⟨o, ho, hcalled⟩ := rwSomeImpl_returns (s := s) hok m sys.transfer sys.input
      refine ⟨o.svc, .rwSome o.ctx, o.called, ?_, .inl hcalled⟩
      simp only [ho, bind, Option.bind_some]
  | rw ctx =>
      have hptrs := hok
      simp only [usable, Bool.and_eq_true] at hptrs
      obtain ⟨o, ho⟩ := Option.isSome_iff_exists.mp
        (rwImpl_isSome hptrs.1.1 hptrs.1.2 hptrs.2 hans m sys.transfer sys.input)
      refine ⟨o.svc, .rw o.ctx, o.called, ?_,
        (rwImpl_progress ho).imp_right fun h => ⟨h.1.trans hok, h.2⟩⟩
      simp only [ho, bind, Option.bind_some]
  | accept ctx =>
      obtain ⟨s', hs'⟩ := acceptImpl_returns s sys hok
      refine ⟨s', .accept ctx, true, ?_, .inl rfl⟩
      simp only [hs', bind, Option.bind_some]
  | conn ctx =>
      obtain ⟨s', hs'⟩ := connectImpl_returns s sys hok
      refine ⟨s', .conn ctx, true, ?_, .inl rfl⟩
      simp only [hs', bind, Option.bind_some]

end

end

/-! ### The system -/

/-- **All operations**: the contexts that are live, and what is known of them. -/
structure Operations where
  ctxs : Addr → Option OpCtx
  /-- the handlers that a service has accepted and not called -/
  scheduled : List IoHandler
  /-- the contexts whose user's handler is running, the innermost one first -/
  running : List Addr
  /-- the contexts of the operations that a service has refused -/
  refused : List Addr
  /-- ghost: the user's handlers of the operations that were accepted -/
  accepted : List IoHandler
  /-- ghost: the user's handlers that were called -/
  called : List IoHandler

namespace Operations

/-- No operation. -/
def init : Operations := ⟨fun _ => none, [], [], [], [], []⟩

/-- Those who are to free a context, if anyone is. -/
def owners (w : Operations) : List Addr := w.scheduled.map (·.ctx) ++ w.running ++ w.refused

end Operations

/-- The user's handler that a scheduled one is for. -/
def userOf (ctxs : Addr → Option OpCtx) (hnd : IoHandler) : Option IoHandler :=
  (ctxs hnd.ctx).map OpCtx.hnd

/-- The context of a handler is there, and of the handler's own type. -/
def Typed (ctxs : Addr → Option OpCtx) (hnd : IoHandler) : Prop :=
  ∃ ctx, ctxs hnd.ctx = some ctx ∧ hnd.callback = some ctx.implCallback

/-- **A step of the system**, with a service in any state, and anything that the system calls may
return. -/
inductive OpStep (w : Operations) : Operations → Prop
  /-- an operation fails before it asks the service -/
  | fail {s s' : Svc RbMem} {m : UserMem} {sys : SysCalls} {op : Operation} {code : IoErrcode}
      (h : op.start s m sys = some (code, s', none)) :
      OpStep w { w with
        scheduled := acceptedSince s s' ++ w.scheduled
        accepted := if code = .ok then op.hnd :: w.accepted else w.accepted }
  /-- an operation asks the service; its context is at an address that is not in use -/
  | start {s s' : Svc RbMem} {m : UserMem} {sys : SysCalls} {op : Operation} {code : IoErrcode}
      {arg : Addr} {ctx : OpCtx} (h : op.start s m sys = some (code, s', some (arg, ctx)))
      (hfresh : w.ctxs arg = none) :
      OpStep w { w with
        ctxs := Function.update w.ctxs arg (some ctx)
        scheduled := acceptedSince s s' ++ w.scheduled
        refused := if code = .ok then w.refused else arg :: w.refused
        accepted := if code = .ok then op.hnd :: w.accepted else w.accepted }
  /-- a service calls a handler that it has accepted -/
  | complete {s s' : Svc RbMem} {m : UserMem} {sys : SysCalls} {hnd : IoHandler}
      {ctx ctx' : OpCtx} {called : Bool} (hmem : hnd ∈ w.scheduled)
      (hctx : w.ctxs hnd.ctx = some ctx)
      (h : ctx.complete s m sys hnd = some (s', ctx', called)) :
      OpStep w { w with
        ctxs := Function.update w.ctxs hnd.ctx (some ctx')
        scheduled := acceptedSince s s' ++ w.scheduled.erase hnd
        running := if called then hnd.ctx :: w.running else w.running
        called := if called then ctx'.hnd :: w.called else w.called }
  /-- the user's handler returns, and the context is freed -/
  | ret {a : Addr} {rest : List Addr} (h : w.running = a :: rest) (hlive : (w.ctxs a).isSome) :
      OpStep w { w with ctxs := Function.update w.ctxs a none, running := rest }

/-- Any number of steps. -/
abbrev OpSteps : Operations → Operations → Prop := Relation.ReflTransGen OpStep

/-- **The system is in order.** -/
structure OpsSound (w : Operations) : Prop where
  owns : Owns w.ctxs w.owners
  typed : ∀ hnd ∈ w.scheduled, Typed w.ctxs hnd
  /-- every operation that was accepted has had its user's handler called, or will have -/
  accounts : w.accepted.Perm (w.called ++ w.scheduled.filterMap (userOf w.ctxs))

section

variable {w w' : Operations}

/-- Before the first operation there is nothing to be sound. -/
theorem opsSound_init : OpsSound .init :=
  ⟨.empty, nofun, .refl _⟩

section

variable {ctxs : Addr → Option OpCtx} {a : Addr} {o : Option OpCtx} {l : List IoHandler}

/-- The user's handler of a scheduled one is found in its context. -/
theorem filterMap_userOf_cons {hnd : IoHandler} {ctx : OpCtx} (h : ctxs hnd.ctx = some ctx)
    (l : List IoHandler) :
    (hnd :: l).filterMap (userOf ctxs) = ctx.hnd :: l.filterMap (userOf ctxs) :=
  List.filterMap_cons_some (by rw [userOf, h, Option.map_some])

/-- A change elsewhere does not concern a handler. -/
theorem filterMap_userOf_update (ha : a ∉ l.map (·.ctx)) :
    l.filterMap (userOf (Function.update ctxs a o)) = l.filterMap (userOf ctxs) := by
  refine List.filterMap_congr fun hnd hmem => ?_
  have hne : hnd.ctx ≠ a := by
    rintro rfl
    exact ha (List.mem_map.mpr ⟨hnd, hmem, rfl⟩)
  rw [userOf, userOf, Function.update_of_ne hne]

/-- A context that no scheduled handler has may be written. -/
theorem typed_update (ha : a ∉ l.map (·.ctx)) (h : ∀ hnd ∈ l, Typed ctxs hnd) :
    ∀ hnd ∈ l, Typed (Function.update ctxs a o) hnd := by
  intro hnd hmem
  have hne : hnd.ctx ≠ a := by
    rintro rfl
    exact ha (List.mem_map.mpr ⟨hnd, hmem, rfl⟩)
  rw [Typed, Function.update_of_ne hne]
  exact h hnd hmem

end

/-- **Every step** keeps the system in order. -/
theorem OpsSound.step (hw : OpsSound w) (h : OpStep w w') : OpsSound w' := by
  cases h with
  | fail h =>
      obtain ⟨hcode, hacc⟩ := Operation.start_spec h
      rw [hacc, if_neg hcode]
      exact hw
  | @start s s' m sys op code arg ctx h hfresh =>
      obtain ⟨huser, hacc⟩ := Operation.start_spec h
      have hnew := hw.owns.alloc hfresh ctx
      have hsched : arg ∉ w.scheduled.map (·.ctx) := fun hc => hw.owns.notMem hfresh
        (List.mem_append_left _ (List.mem_append_left _ hc))
      by_cases hcode : code = .ok
      · rw [hacc, if_pos hcode, if_pos hcode, if_pos hcode]
        refine ⟨hnew, ?_, ?_⟩
        · rw [List.singleton_append, List.forall_mem_cons]
          exact ⟨⟨ctx, Function.update_self .., rfl⟩, typed_update hsched hw.typed⟩
        · have hself : Function.update w.ctxs arg (some ctx) (ctx.handler arg).ctx = some ctx :=
            Function.update_self ..
          dsimp only
          rw [List.singleton_append, filterMap_userOf_cons hself, filterMap_userOf_update hsched,
            huser]
          exact (hw.accounts.cons _).trans List.perm_middle.symm
      · rw [hacc, if_neg hcode, if_neg hcode, if_neg hcode]
        refine ⟨hnew.perm List.perm_middle.symm, typed_update hsched hw.typed, ?_⟩
        dsimp only
        rw [List.nil_append, filterMap_userOf_update hsched]
        exact hw.accounts
  | @complete s s' m sys hnd ctx ctx' called hmem hctx h =>
      obtain ⟨hcb, himpl, huser, hacc⟩ := OpCtx.complete_spec h
      have hperm := List.perm_cons_erase hmem
      have hrest : hnd.ctx ∉ (w.scheduled.erase hnd).map (·.ctx) := by
        have hnodup := ((hperm.map (·.ctx)).nodup_iff.mp
          (hw.owns.nodup.of_append_left.of_append_left))
        exact (List.nodup_cons.mp hnodup).1
      have howner : hnd.ctx ∈ w.owners :=
        List.mem_append_left _ (List.mem_append_left _ (List.mem_map.mpr ⟨hnd, hmem, rfl⟩))
      have howns := (hw.owns.write howner ctx').perm
        (((hperm.map (·.ctx)).append_right _).append_right _)
      have htyped := typed_update (o := some ctx') hrest
        fun h' hh => hw.typed h' (List.mem_of_mem_erase hh)
      have haccounts : w.accepted.Perm
          (w.called ++ ctx.hnd :: (w.scheduled.erase hnd).filterMap (userOf w.ctxs)) := by
        rw [← filterMap_userOf_cons hctx]
        exact hw.accounts.trans ((hperm.filterMap _).append_left _)
      cases called with
      | true =>
          rw [hacc, if_pos rfl, if_pos rfl, if_pos rfl]
          refine ⟨howns.perm (List.perm_middle.symm.append_right _), htyped, ?_⟩
          dsimp only
          rw [List.nil_append, filterMap_userOf_update hrest, huser]
          exact haccounts.trans List.perm_middle
      | false =>
          rw [hacc, if_neg Bool.false_ne_true, if_neg Bool.false_ne_true,
            if_neg Bool.false_ne_true]
          refine ⟨howns, ?_, ?_⟩
          · rw [List.singleton_append, List.forall_mem_cons]
            exact ⟨⟨ctx', Function.update_self .., by rw [hcb, himpl]⟩, htyped⟩
          · dsimp only
            rw [List.singleton_append, filterMap_userOf_cons (Function.update_self ..),
              filterMap_userOf_update hrest, huser]
            exact haccounts
  | @ret a rest h hlive =>
      have hperm : w.owners.Perm (a :: (w.scheduled.map (·.ctx) ++ rest ++ w.refused)) := by
        rw [Operations.owners, h]
        exact List.perm_middle.append_right _
      have howns := hw.owns.perm hperm
      have hsched : a ∉ w.scheduled.map (·.ctx) := fun hc => (List.nodup_cons.mp howns.nodup).1
        (List.mem_append_left _ (List.mem_append_left _ hc))
      refine ⟨howns.free, typed_update hsched hw.typed, ?_⟩
      dsimp only
      rw [filterMap_userOf_update hsched]
      exact hw.accounts

/-- **The contexts are handled soundly, over every run of every number of operations.** A context
that is live has one owner, a scheduled handler finds a live context of its own type, and a
context is freed once. Every operation that was accepted has had its user's handler called once,
or is scheduled. If its callback and the pointers it was given are not `NULL`, every completion
returns, and calls the handler or leaves fewer bytes to be moved. When nothing is scheduled and no
user's handler runs, those of the operations accepted are those called, and the contexts that are
left are those of the operations that the service has refused. -/
theorem operations_sound (h : OpSteps .init w) :
    Owns w.ctxs w.owners ∧
      (∀ hnd ∈ w.scheduled, Typed w.ctxs hnd) ∧
      w.accepted.Perm (w.called ++ w.scheduled.filterMap (userOf w.ctxs)) ∧
      (∀ hnd ∈ w.scheduled, ∀ ctx, w.ctxs hnd.ctx = some ctx → ctx.usable = true →
        ∀ (s : Svc RbMem) (m : UserMem) (sys : SysCalls), ctx.Answered s hnd.ctx →
          ∃ s' ctx' called, ctx.complete s m sys hnd = some (s', ctx', called) ∧
            (called = true ∨ ctx'.usable = true ∧ ctx'.left < ctx.left)) ∧
      (w.scheduled = [] → w.running = [] →
        w.accepted.Perm w.called ∧ ∀ a, (w.ctxs a).isSome ↔ a ∈ w.refused) := by
  have hw : OpsSound w := by
    induction h with
    | refl => exact opsSound_init
    | tail _ hstep ih => exact ih.step hstep
  refine ⟨hw.owns, hw.typed, hw.accounts, fun hnd hmem ctx hctx hok s m sys hans => ?_,
    fun hsched hrun => ⟨?_, fun a => ?_⟩⟩
  · obtain ⟨ctx₁, hctx₁, hcb⟩ := hw.typed hnd hmem
    obtain rfl := Option.some.inj (hctx.symm.trans hctx₁)
    exact OpCtx.complete_returns hcb hok hans m sys
  · simpa [hsched] using hw.accounts
  · simpa [Operations.owners, hsched, hrun] using hw.owns.isSome_iff a

end

/-- The system moves some bytes; a connection is in progress. -/
def someCalls (transfer : ℤ) : SysCalls := ⟨transfer, fun _ => 0, 4, 0, 0, 0, 0, -1, true⟩

/-- A read of five bytes is completed, two bytes first and three after them. A connect was refused,
and its context is left. -/
theorem operations_sound_refused : ∃ (w w' : Operations) (ctx : OpCtx),
    w.scheduled = [⟨some rwImplPtr, 0⟩] ∧ w.ctxs 0 = some ctx ∧ ctx.left = 3 ∧
      (∃ s' ctx' called, ctx.complete (newService 0 (fun _ => 0) fun _ => .ok) clearMem
        (someCalls 1) ⟨some rwImplPtr, 0⟩ = some (s', ctx', called) ∧
          (called = true ∨ ctx'.usable = true ∧ ctx'.left < ctx.left)) ∧
      w'.accepted = [⟨some 7, 0⟩] ∧ w'.accepted.Perm w'.called ∧ (w'.ctxs 9).isSome := by
  let s : Svc RbMem := newService 0 (fun _ => 0) fun _ => .ok
  let s₉ : Svc RbMem := { s with status := .done, alloc := ⟨fun _ => true, 9⟩ }
  let read : Operation := .rw false 5 100 5 ⟨some 7, 0⟩ (some 1) (some 2)
  let connect : Operation := .connect 6 ⟨some 8, 0⟩ (some 3)
  let impl : IoHandler := ⟨some rwImplPtr, 0⟩
  obtain ⟨s₁, ctx₁, h₁, hnew₁, s₃, ctx₃, h₃, hnew₃, hok, hleft, hans, s₄, ctx₄, h₄, hnew₄⟩ :
      ∃ s₁ ctx₁, read.start s clearMem (someCalls 0) = some (.ok, s₁, some (0, ctx₁)) ∧
        acceptedSince s s₁ = [impl] ∧
        ∃ s₃ ctx₃, ctx₁.complete s clearMem (someCalls 2) impl = some (s₃, ctx₃, false) ∧
          acceptedSince s s₃ = [impl] ∧ ctx₃.usable = true ∧ ctx₃.left = 3 ∧
          ctx₃.Answered s 0 ∧
          ∃ s₄ ctx₄, ctx₃.complete s clearMem (someCalls 3) impl = some (s₄, ctx₄, true) ∧
            acceptedSince s s₄ = [] := by
    exact ⟨_, _, rfl, rfl, _, _, rfl, rfl, rfl, rfl, rfl, _, _, rfl, rfl⟩
  obtain ⟨s₂, ctx₂, code, h₂, hcode, hnew₂⟩ : ∃ s₂ ctx₂ code,
      connect.start s₉ clearMem (someCalls 0) = some (code, s₂, some (9, ctx₂)) ∧ code ≠ .ok ∧
        acceptedSince s₉ s₂ = [] := by
    exact ⟨_, _, _, rfl, by decide, rfl⟩
  let w₁ : Operations :=
    ⟨Function.update (fun _ => none) 0 (some ctx₁), [impl], [], [], [⟨some 7, 0⟩], []⟩
  let w₂ : Operations := { w₁ with
    ctxs := Function.update w₁.ctxs 9 (some ctx₂)
    refused := [9] }
  let w₃ : Operations := { w₂ with ctxs := Function.update w₂.ctxs 0 (some ctx₃) }
  let w₄ : Operations := { w₃ with
    ctxs := Function.update w₃.ctxs 0 (some ctx₄)
    scheduled := []
    running := [0]
    called := [ctx₄.hnd] }
  have hstep₁ : OpStep .init w₁ := by
    have h := OpStep.start (w := .init) h₁ rfl
    rwa [hnew₁] at h
  have hstep₂ : OpStep w₁ w₂ := by
    have h := OpStep.start (w := w₁) h₂ rfl
    rwa [hnew₂, if_neg hcode, if_neg hcode] at h
  have hstep₃ : OpStep w₂ w₃ := by
    have h := OpStep.complete (w := w₂) (List.mem_singleton.mpr rfl) rfl h₃
    rwa [hnew₃] at h
  have hstep₄ : OpStep w₃ w₄ := by
    have h := OpStep.complete (w := w₃) (List.mem_singleton.mpr rfl) rfl h₄
    rwa [hnew₄] at h
  have hsteps₃ : OpSteps .init w₃ := .head hstep₁ (.head hstep₂ (.single hstep₃))
  have hsteps : OpSteps .init { w₄ with ctxs := Function.update w₄.ctxs 0 none, running := [] } :=
    hsteps₃.trans (.head hstep₄ (.single (.ret rfl rfl)))
  obtain ⟨-, -, -, hreturns, -⟩ := operations_sound hsteps₃
  obtain ⟨-, -, -, -, hrest⟩ := operations_sound hsteps
  obtain ⟨hcalled, hlive⟩ := hrest rfl rfl
  exact ⟨w₃, _, ctx₃, rfl, rfl, hleft,
    hreturns impl (List.mem_singleton.mpr rfl) ctx₃ rfl hok s clearMem (someCalls 1) hans, rfl,
    hcalled, (hlive 9).mpr (List.mem_singleton.mpr rfl)⟩

end IoEngine
