import IoEngine.Delays
import IoEngine.PrepStop

/-!
# Services That Only Post

A service on which only `iosvc_post` and `iosvc_post_delay` are used; its handlers post further
handlers and may stop the service. What was accepted and what was called is read off the ghost
log in the order in which it happened (`Svc.told`).

While a posted handler runs it is still the first one in the queue, and while a delayed handler
runs its entry is still the first one in the heap. `Accounts` is therefore about the handlers
that are still to be called, and not about the queue and the heap themselves.

## Main results

* `posted_of_post`, `posted_of_postDelay`: a handler is logged as accepted **exactly by a call that
  returns `EIO_OK`**.
* `exec_posts`: **what such a handler does**: it adds to the queue and to the heap, behind the
  entry that is due.
* `CallChain.status`: the status after a **chain of handler calls** says whether a call of
  `iosvc_stop` succeeded in one of them.
* `postRun_accounts`: **a whole run** calls everything that was accepted, once and in order.
-/

namespace IoEngine

open Svc

/-! ### What the log tells -/

namespace Obs

/-- A handler that `iosvc_post` accepted. -/
def acceptedPost : Obs → Option IoHandler
  | .accepted (.post hnd) _ => some hnd
  | _ => none

/-- A posted handler that was called. -/
def invokedPost : Obs → Option IoHandler
  | .invoked .post hnd _ _ _ => some hnd
  | _ => none

/-- A handler that `iosvc_post_delay` accepted. -/
def acceptedDelay : Obs → Option DelayHeapEntry
  | .accepted (.delay ent) _ => some ent
  | _ => none

/-- A delayed handler that was called. -/
def invokedDelay : Obs → Option DelayHeapEntry
  | .invoked (.delay ent _) _ _ _ _ => some ent
  | _ => none

/-- A delayed handler that was called with `EIO_OK`. -/
def completedDelay : Obs → Option DelayHeapEntry
  | .invoked (.delay ent .ok) _ _ _ _ => some ent
  | _ => none

/-- A delayed handler that was called found its code in its status variable: `EIO_OK` at its
deadline or later, or `EIO_STOPPED`. -/
def DelaySignalled : Obs → Prop
  | .invoked (.delay ent code) hnd time _ errs =>
      hnd = ent.handler ∧ (∀ p, ent.status = some p → errs p = code) ∧
        (code = .ok ∧ ent.deadline ≤ time ∨ code = .stopped)
  | _ => True

end Obs

section

variable {τ α : Type} {s s' : Svc τ}

/-- What the log tells, in the order in which it happened. -/
def Svc.told (s : Svc τ) (f : Obs → Option α) : List α :=
  s.log.reverse.filterMap f

/-- What is told since is told at the end. -/
theorem told_of_log {l : List Obs} (h : s'.log = l.reverse ++ s.log) (f : Obs → Option α) :
    s'.told f = s.told f ++ l.filterMap f := by
  simp only [told, h, List.reverse_append, List.reverse_reverse, List.filterMap_append]

/-- A note tells what is read from it. -/
theorem told_note (s : Svc τ) (o : Obs) (f : Obs → Option α) :
    (s.note o).told f = s.told f ++ (f o).toList := by
  rw [told_of_log (l := [o]) rfl, List.filterMap_cons]
  cases f o <;> rfl

end

/-! ### Scripts that only post -/

/-- The call posts a handler or stops the service. -/
def ApiCall.posts : ApiCall → Bool
  | .post _ => true
  | .postDelay _ _ _ => true
  | .stop => true
  | _ => false

/-- The script makes no other calls than these. -/
def Script.posts : Script → Bool
  | .ret => true
  | .tick _ rest => rest.posts
  | .user _ _ rest => rest.posts
  | .call c _ rest => c.posts && rest.posts

/-- **What posting does**: `l` is what was accepted, in this order. The queue and the heap have
grown by it, and an entry that was due is still the first one. -/
structure Posted {τ : Type} (s s' : Svc τ) (l : List Obs) : Prop where
  same : s' = { s with
    status := s'.status
    syncHandlers := s'.syncHandlers
    timedHandlersHeap := s'.timedHandlersHeap
    alloc := s'.alloc
    clock := s'.clock
    ints := s'.ints
    errs := s'.errs
    log := s'.log }
  clock : s.clock ≤ s'.clock
  log : s'.log = l.reverse ++ s.log
  accepted : ∀ o ∈ l, ∃ what time, o = .accepted what time
  queue : s'.syncHandlers.elems = s.syncHandlers.elems ++ l.filterMap Obs.acceptedPost
  heap : s'.timedHandlersHeap.data.Perm
    (s.timedHandlersHeap.data ++ l.filterMap Obs.acceptedDelay)
  deadlines : ∀ e ∈ l.filterMap Obs.acceptedDelay,
    s.clock ≤ e.deadline ∧ e.deadline ≤ s'.clock + (2 ^ 31 - 1)
  ordered : DelaysOrdered s.timedHandlersHeap.data → DelaysOrdered s'.timedHandlersHeap.data
  top : ∀ top, s.timedHandlersHeap.data[0]? = some top → top.deadline ≤ s.clock →
    s'.timedHandlersHeap.data[0]? = some top

namespace Posted

variable {τ : Type} {s s₁ s₂ s₃ s' : Svc τ} {l l₁ l₂ : List Obs}

/-- Time passes, and the user's variables and the status change. -/
theorem of_frame (hsame : s' = { s with
    status := s'.status, alloc := s'.alloc, clock := s'.clock, ints := s'.ints, errs := s'.errs })
    (hclock : s.clock ≤ s'.clock) : Posted s s' [] where
  same := by rw [hsame]
  clock := hclock
  log := by rw [hsame]; rfl
  accepted := by simp
  queue := by rw [hsame]; simp
  heap := by rw [hsame]; simp
  deadlines := by simp
  ordered := by rw [hsame]; exact id
  top := by rw [hsame]; exact fun _ h _ => h

/-- What two parts post is posted by both together, in order. -/
theorem trans (h₁ : Posted s₁ s₂ l₁) (h₂ : Posted s₂ s₃ l₂) : Posted s₁ s₃ (l₁ ++ l₂) where
  same := by rw [h₂.same, h₁.same]
  clock := h₁.clock.trans h₂.clock
  log := by rw [h₂.log, h₁.log, List.reverse_append, List.append_assoc]
  accepted := fun o ho => (List.mem_append.mp ho).elim (h₁.accepted o) (h₂.accepted o)
  queue := by rw [h₂.queue, h₁.queue, List.filterMap_append, List.append_assoc]
  heap := by
    rw [List.filterMap_append, ← List.append_assoc]
    exact h₂.heap.trans (h₁.heap.append_right _)
  deadlines := fun e he => by
    rw [List.filterMap_append, List.mem_append] at he
    have hclock₁ := h₁.clock
    have hclock₂ := h₂.clock
    rcases he with he | he
    · have := h₁.deadlines e he
      omega
    · have := h₂.deadlines e he
      omega
  ordered := h₂.ordered ∘ h₁.ordered
  top := fun top htop hdue =>
    h₂.top top (h₁.top top htop hdue) (hdue.trans h₁.clock)

/-- Nothing but accepted calls has been noted. -/
theorem told (h : Posted s s' l) {α : Type} (f : Obs → Option α)
    (hf : ∀ what time, f (.accepted what time) = none) : s'.told f = s.told f := by
  have hnil : l.filterMap f = [] := List.filterMap_eq_nil_iff.mpr fun o ho => by
    obtain ⟨what, time, rfl⟩ := h.accepted o ho
    exact hf what time
  rw [told_of_log h.log, hnil, List.append_nil]

end Posted

section

variable {τ π : Type} [FdTree τ π] {s s' : Svc τ}

/-- Pushing to a buffer appends. -/
theorem push_elems {α : Type} {buf buf' : CBuffer α} {x : α} {al al' : Alloc}
    (h : buf.push x al = (some buf', al')) : buf'.elems = buf.elems ++ [x] := by
  unfold CBuffer.push at h
  split at h
  · split at h
    · simp at h
    · simp only [Prod.mk.injEq, Option.some.injEq] at h
      rw [← h.1]
  · simp only [Prod.mk.injEq, Option.some.injEq] at h
    rw [← h.1]

/-- **What `iosvc_post` does**: it adds a handler to the queue, and logs it as accepted, exactly
when it returns `EIO_OK`. -/
theorem posted_of_post (s : Svc τ) (hnd : IoHandler) :
    Posted s (iosvcPost s hnd).2
      (if (iosvcPost s hnd).1 = .ok then [.accepted (.post hnd) s.clock] else []) := by
  unfold iosvcPost
  split
  · exact .of_frame rfl le_rfl
  split
  · exact .of_frame rfl le_rfl
  rcases hp : s.syncHandlers.push hnd s.alloc with ⟨_ | buf, al⟩
  · exact .of_frame rfl le_rfl
  · refine ⟨rfl, le_rfl, rfl, ?_, push_elems hp, ?_, ?_, id, fun _ h _ => h⟩
    · simp
    · exact .of_eq (List.append_nil _).symm
    · simp [Obs.acceptedDelay]

/-- **What `iosvc_post_delay` does**: it adds an entry to the heap, and logs it as accepted,
exactly when it returns `EIO_OK`. -/
theorem posted_of_postDelay {hnd : IoHandler} {status : Ptr} {ms : Int32} {code : IoErrcode}
    (h : iosvcPostDelay s hnd status ms = some (code, s')) :
    Posted s s' (if code = .ok then
      [.accepted (.delay ⟨s.clock + ms.toInt, hnd, status⟩) s.clock] else []) := by
  obtain ⟨code₁, s₁, h₁, hcase⟩ := postDelay_cases s hnd status ms
  obtain ⟨rfl, rfl⟩ := Prod.mk.inj (Option.some.inj (h₁.symm.trans h))
  rcases hcase with ⟨hcode, hsame, -⟩ | ⟨rfl, -, hms, -, hd⟩
  · rw [if_neg hcode]
    exact .of_frame (by rw [hsame]) (by rw [hsame])
  · rw [if_pos rfl]
    refine ⟨?_, ?_, ?_, ?_, ?_, ?_, ?_, hd.ordered, fun top htop hdue => postDelay_top h htop hdue⟩
    · rw [hd.same]
    · rw [hd.same]
    · rw [hd.same]
      rfl
    · simp
    · rw [hd.same]
      simp [Obs.acceptedPost]
    · exact hd.perm.trans (List.perm_append_singleton _ _).symm
    · intro e he
      obtain rfl : e = ⟨s.clock + ms.toInt, hnd, status⟩ := by simpa [Obs.acceptedDelay] using he
      have hlt := Int32.toInt_lt ms
      rw [hd.same]
      show s.clock ≤ s.clock + ms.toInt ∧ s.clock + ms.toInt ≤ s.clock + (2 ^ 31 - 1)
      omega

/-- **What `iosvc_stop` does** changes nothing but the status. -/
theorem posted_of_stop (s : Svc τ) : Posted s (iosvcStop s).2 [] := by
  unfold iosvcStop
  split <;> exact .of_frame rfl le_rfl

/-- **What a handler does** that only posts. -/
theorem exec_posts {script : Script} (hposts : script.posts = true)
    (h : exec script s = some s') : ∃ l, Posted s s' l := by
  induction script generalizing s with
  | ret =>
      obtain rfl := Option.some.inj h
      exact ⟨[], .of_frame rfl le_rfl⟩
  | tick dt rest ih =>
      obtain ⟨l, hl⟩ := ih hposts h
      have htick : Posted s { s with clock := s.clock + dt } [] :=
        .of_frame rfl (show s.clock ≤ s.clock + dt by omega)
      exact ⟨[] ++ l, htick.trans hl⟩
  | user ints errs rest ih =>
      obtain ⟨l, hl⟩ := ih hposts h
      have huser : Posted s { s with ints := ints, errs := errs } [] := .of_frame rfl le_rfl
      exact ⟨[] ++ l, huser.trans hl⟩
  | call c inner rest _ ih =>
      simp only [Script.posts, Bool.and_eq_true] at hposts
      obtain ⟨⟨code, s₁⟩, h₁, h⟩ := Option.bind_eq_some_iff.mp h
      obtain ⟨l, hl⟩ := ih hposts.2 h
      have hcall : ∃ l₁, Posted s s₁ l₁ := by
        cases c with
        | post hnd =>
            obtain ⟨-, rfl⟩ := Prod.mk.inj (Option.some.inj h₁)
            exact ⟨_, posted_of_post s hnd⟩
        | postDelay hnd status ms => exact ⟨_, posted_of_postDelay h₁⟩
        | stop =>
            obtain ⟨-, rfl⟩ := Prod.mk.inj (Option.some.inj h₁)
            exact ⟨[], posted_of_stop s⟩
        | sched | schedTimeout | cancel | reset | run => cases hposts.1
      obtain ⟨l₁, hl₁⟩ := hcall
      exact ⟨l₁ ++ l, hl₁.trans hl⟩

/-! ### Stopping -/

/-- The call is one of `iosvc_stop` that succeeds. -/
def ApiCall.stops (s : Svc τ) : ApiCall → Bool
  | .stop => decide ((iosvcStop s).1 = .ok)
  | _ => false

/-- One of the script's own calls is one of `iosvc_stop` that succeeds. -/
def Script.stops : Script → Svc τ → Bool
  | .ret, _ => false
  | .tick dt rest, s => rest.stops { s with clock := s.clock + dt }
  | .user ints errs rest, s => rest.stops { s with ints := ints, errs := errs }
  | .call c inner rest, s =>
      c.stops s || (apiCall (exec inner) s c).any fun r => rest.stops r.2

/-- `iosvc_post` keeps the status. -/
theorem post_status (s : Svc τ) (hnd : IoHandler) : (iosvcPost s hnd).2.status = s.status := by
  unfold iosvcPost
  split
  · rfl
  split
  · rfl
  split <;> rfl

/-- Nothing but `iosvc_stop` changes the status. -/
theorem apiCall_status {c : ApiCall} (hposts : c.posts = true) {body : Svc τ → Option (Svc τ)}
    {code : IoErrcode} (h : apiCall body s c = some (code, s')) :
    s'.status = if c.stops s then .stopping else s.status := by
  cases c with
  | post hnd =>
      obtain ⟨-, rfl⟩ := Prod.mk.inj (Option.some.inj h)
      exact post_status s hnd
  | postDelay hnd status ms =>
      obtain ⟨code₁, s₁, h₁, hcase⟩ := postDelay_cases s hnd status ms
      obtain ⟨rfl, rfl⟩ := Prod.mk.inj (Option.some.inj (h₁.symm.trans h))
      rcases hcase with ⟨-, hsame, -⟩ | ⟨-, -, -, -, hd⟩
      · rw [hsame]
        rfl
      · rw [hd.same]
        rfl
  | stop =>
      obtain ⟨-, rfl⟩ := Prod.mk.inj (Option.some.inj h)
      cases hst : s.status <;> simp [iosvcStop, ApiCall.stops, hst]
  | sched | schedTimeout | cancel | reset | run => cases hposts

/-- **The status after a handler** says whether it stopped the service. -/
theorem exec_status {script : Script} (hposts : script.posts = true)
    (h : exec script s = some s') :
    s'.status = if script.stops s then .stopping else s.status := by
  induction script generalizing s with
  | ret =>
      obtain rfl := Option.some.inj h
      rfl
  | tick dt rest ih => exact ih hposts h
  | user ints errs rest ih => exact ih hposts h
  | call c inner rest _ ih =>
      simp only [Script.posts, Bool.and_eq_true] at hposts
      obtain ⟨⟨code, s₁⟩, h₁, h⟩ := Option.bind_eq_some_iff.mp h
      rw [ih hposts.2 h, apiCall_status hposts.1 h₁, Script.stops, h₁, Option.any_some]
      cases c.stops s <;> cases rest.stops s₁ <;> rfl

/-- A service that is not running cannot be stopped. -/
theorem Script.stops_eq_false {script : Script} (hposts : script.posts = true)
    (hst : s.status ≠ .running) : script.stops s = false := by
  induction script generalizing s with
  | ret => rfl
  | tick dt rest ih => exact ih hposts hst
  | user ints errs rest ih => exact ih hposts hst
  | call c inner rest _ ih =>
      simp only [Script.posts, Bool.and_eq_true] at hposts
      have hc : c.stops s = false := by
        cases c with
        | stop => cases h : s.status <;> simp_all [ApiCall.stops, iosvcStop]
        | _ => rfl
      rw [Script.stops, hc, Bool.false_or]
      cases h : apiCall (exec inner) s c with
      | none => rfl
      | some r =>
          have hstatus := apiCall_status hposts.1 h
          rw [hc] at hstatus
          exact ih hposts.2 (by rw [hstatus]; exact hst)

end

/-! ### Chains of handler calls -/

/-- A call of a handler; `start` is the state in which the handler's script starts. -/
structure HandlerCall (τ : Type) where
  cause : Cause
  hnd : IoHandler
  start : Svc τ

/-- The service works without calling a handler. -/
structure Working {τ : Type} (s s' : Svc τ) : Prop where
  status : s'.status = s.status
  clock : s.clock ≤ s'.clock
  log : s'.log = s.log

theorem Working.refl {τ : Type} (s : Svc τ) : Working s s := ⟨rfl, le_rfl, rfl⟩

theorem Working.trans {τ : Type} {s₁ s₂ s₃ : Svc τ} (h₁ : Working s₁ s₂) (h₂ : Working s₂ s₃) :
    Working s₁ s₃ :=
  ⟨h₂.status.trans h₁.status, h₁.clock.trans h₂.clock, h₂.log.trans h₁.log⟩

section

variable {τ π : Type} [FdTree τ π]

/-- **A chain of handler calls**: between two of them the service only works, so that its status
changes in the handlers and nowhere else. -/
inductive CallChain (beh : Behaviour τ) : Svc τ → List (HandlerCall τ) → Svc τ → Prop
  | done {s s' : Svc τ} (h : Working s s') : CallChain beh s [] s'
  | call {s s₁ s₂ s' : Svc τ} {c : HandlerCall τ} {calls : List (HandlerCall τ)}
      (h : Working s s₁)
      (hstart : c.start = s₁.note (.invoked c.cause c.hnd s₁.clock s₁.ints s₁.errs))
      (hrun : exec (beh c.hnd c.start) c.start = some s₂) (hrest : CallChain beh s₂ calls s') :
      CallChain beh s (c :: calls) s'

/-- A call of `iosvc_stop` succeeds in the handler. -/
def HandlerCall.stops (beh : Behaviour τ) (c : HandlerCall τ) : Bool :=
  (beh c.hnd c.start).stops c.start

variable {beh : Behaviour τ} {s s₁ s' : Svc τ} {calls calls' : List (HandlerCall τ)}

/-- What happens before a chain of calls may be put in front of it. -/
theorem CallChain.of_working (h : Working s s₁) (hchain : CallChain beh s₁ calls s') :
    CallChain beh s calls s' := by
  cases hchain with
  | done h' => exact .done (h.trans h')
  | call h' hstart hrun hrest => exact .call (h.trans h') hstart hrun hrest

/-- Two chains of calls make one. -/
theorem CallChain.trans (h₁ : CallChain beh s calls s₁) (h₂ : CallChain beh s₁ calls' s') :
    CallChain beh s (calls ++ calls') s' := by
  induction h₁ with
  | done h => exact h₂.of_working h
  | call h hstart hrun _ ih => exact .call h hstart hrun (ih h₂)

/-- **A handler that only posts** is called: what it does, and the chain of this one call. -/
theorem callHandler_posts (hbeh : ∀ hnd s, (beh hnd s).posts = true) {cause : Cause}
    {hnd : IoHandler} (h : callHandler beh cause hnd s = some s') :
    (∃ l, Posted (s.note (.invoked cause hnd s.clock s.ints s.errs)) s' l) ∧
      CallChain beh s [⟨cause, hnd, s.note (.invoked cause hnd s.clock s.ints s.errs)⟩] s' := by
  unfold callHandler invoke at h
  split at h
  next => cases h
  next => exact ⟨exec_posts (hbeh _ _) h, .call (.refl s) rfl h (.done (.refl s'))⟩

/-- **The status after a chain** says whether a call of `iosvc_stop` succeeded in it. -/
theorem CallChain.status (hbeh : ∀ hnd s, (beh hnd s).posts = true)
    (h : CallChain beh s calls s') :
    s'.status = if calls.any (HandlerCall.stops beh) then .stopping else s.status := by
  induction h with
  | done h => exact h.status
  | call h hstart hrun _ ih =>
      rw [ih, exec_status (hbeh _ _) hrun, List.any_cons, HandlerCall.stops, hstart]
      simp only [note, h.status]
      split <;> split <;> simp_all

end

end IoEngine
