import Mathlib.Algebra.BigOperators.Group.List.Basic
import Mathlib.Algebra.Ring.Nat
import IoEngine.PostRuns

/-!
# Services That Only Post Come to an End

A handler that posts itself again is called again, so that `iosvc_run` need not return. The work
that a handler gives rise to is therefore bounded by a cost: the handler itself, and the costs of
the handlers that it posts. What has been called and the work that waits in the queue and in the
heap do not grow together (`Spends`), and every `poll` that times out makes a call.

## Main results

* `callHandler_returns`: **a handler returns**, and has posted less than its cost.
* `PostInv.runLoop_returns`: **the loop returns** if enough calls of `poll` time out or one fails.
* `postRun_returns`: **a whole run returns**, and has called everything that was accepted.
-/

namespace IoEngine

open Svc

/-! ### The work that is left -/

section

variable {τ : Type} (cost : IoHandler → ℕ)

/-- The work that a call gives rise to. -/
def ApiCall.work : ApiCall → ℕ
  | .post hnd => cost hnd
  | .postDelay hnd _ _ => cost hnd
  | _ => 0

/-- The work that a script gives rise to. -/
def Script.work : Script → ℕ
  | .ret => 0
  | .tick _ rest => rest.work
  | .user _ _ rest => rest.work
  | .call c _ rest => c.work cost + rest.work

/-- The work that waits in the queue and in the heap. -/
def Svc.work (s : Svc τ) : ℕ :=
  (s.syncHandlers.elems.map cost).sum + (s.timedHandlersHeap.data.map fun e => cost e.handler).sum

end

/-- The entry is a call of a handler. -/
def Obs.isCall : Obs → Bool
  | .invoked .. => true
  | _ => false

/-- The calls of handlers that were made. -/
def Svc.calls {τ : Type} (s : Svc τ) : ℕ := s.log.countP Obs.isCall

/-- Whatever waits can be called, and `poll` does not wait for ever for it: no deadline is the
`-1` of a missing one. -/
structure Callable {τ : Type} (s : Svc τ) : Prop where
  clock : 0 ≤ s.clock
  queue : ∀ hnd ∈ s.syncHandlers.elems, hnd.callback.isSome = true
  heap : ∀ e ∈ s.timedHandlersHeap.data, e.handler.callback.isSome = true ∧ 0 ≤ e.deadline

/-- **The service spends its work**: what has been called and what waits does not grow. -/
structure Spends {τ : Type} (cost : IoHandler → ℕ) (s s' : Svc τ) : Prop where
  callable : Callable s'
  calls : s.calls ≤ s'.calls
  total : s'.calls + s'.work cost ≤ s.calls + s.work cost

section

variable {τ : Type} {cost : IoHandler → ℕ} {s s₁ s' : Svc τ}

theorem Spends.refl (h : Callable s) : Spends cost s s := ⟨h, le_rfl, le_rfl⟩

theorem Spends.trans (h₁ : Spends cost s s₁) (h₂ : Spends cost s₁ s') : Spends cost s s' :=
  ⟨h₂.callable, h₁.calls.trans h₂.calls, h₂.total.trans h₁.total⟩

/-- A handler that waits has a cost. -/
theorem length_le_work (hpos : ∀ hnd, 0 < cost hnd) (s : Svc τ) :
    s.timedHandlersHeap.data.length ≤ s.work cost := by
  have hle := List.length_le_sum_of_one_le (s.timedHandlersHeap.data.map fun e => cost e.handler)
    fun n hn => by
      obtain ⟨e, -, rfl⟩ := List.mem_map.mp hn
      exact hpos e.handler
  rw [List.length_map] at hle
  exact hle.trans (Nat.le_add_left _ _)

/-- A note counts as a call if it is of one. -/
theorem calls_note (s : Svc τ) (o : Obs) :
    (s.note o).calls = s.calls + if o.isCall then 1 else 0 :=
  List.countP_cons

/-- Time passes, and the user's variables and the status change. -/
theorem Callable.frame (h : Callable s) (hsame : s' = { s with
    status := s'.status, pollfds := s'.pollfds, alloc := s'.alloc, clock := s'.clock,
    ints := s'.ints, errs := s'.errs, log := s'.log }) (hclock : s.clock ≤ s'.clock) :
    Callable s' where
  clock := h.clock.trans hclock
  queue := by rw [hsame]; exact h.queue
  heap := by rw [hsame]; exact h.heap

end

/-- The calls of `poll` that let the loop make progress. -/
def PollOutcome.ends : PollOutcome → Bool
  | .expired _ => true
  | .failed _ => true
  | _ => false

/-- The delay given to `poll` is not that of a missing deadline. -/
theorem pollDelay_ne {deadline pollTime : ℤ} (hdeadline : 0 ≤ deadline)
    (hnear : deadline ≤ pollTime + (2 ^ 31 - 1)) : pollDelay deadline pollTime ≠ -1 := by
  unfold pollDelay
  rw [if_neg (by omega)]
  split
  · rw [Int32.toInt_ofInt_of_le (by omega) (by omega)]
    omega
  · omega

/-! ### Handlers that return -/

section

variable {τ π : Type} [FdTree τ π] {cost : IoHandler → ℕ} {s s' : Svc τ}

/-- **What `iosvc_post` adds** is at most the cost of the handler. -/
theorem post_spends (h : Callable s) (hnd : IoHandler) :
    Callable (iosvcPost s hnd).2 ∧ (iosvcPost s hnd).2.calls = s.calls ∧
      (iosvcPost s hnd).2.work cost ≤ s.work cost + cost hnd := by
  unfold iosvcPost
  split
  · exact ⟨h, rfl, Nat.le_add_right _ _⟩
  split
  · exact ⟨h, rfl, Nat.le_add_right _ _⟩
  next hcb =>
  rcases hp : s.syncHandlers.push hnd s.alloc with ⟨_ | buf, al⟩
  · exact ⟨h.frame rfl le_rfl, rfl, Nat.le_add_right _ _⟩
  · have helems := push_elems hp
    refine ⟨⟨h.clock, fun hnd' hmem => ?_, h.heap⟩, rfl, ?_⟩
    · rcases List.mem_append.mp (helems ▸ hmem) with hmem | hmem
      · exact h.queue hnd' hmem
      · obtain rfl := List.mem_singleton.mp hmem
        exact Option.isSome_iff_ne_none.mpr (by simpa using hcb)
    · simp only [Svc.work, note, helems, List.map_append, List.sum_append, List.map_cons,
        List.map_nil, List.sum_cons, List.sum_nil]
      omega

/-- **What `iosvc_post_delay` adds** is at most the cost of the handler. -/
theorem postDelay_spends (h : Callable s) (hnd : IoHandler) (status : Ptr) (ms : Int32) :
    ∃ code s', iosvcPostDelay s hnd status ms = some (code, s') ∧ Callable s' ∧
      s'.calls = s.calls ∧ s'.work cost ≤ s.work cost + cost hnd := by
  obtain ⟨code, s', hrun, hcase⟩ := postDelay_cases s hnd status ms
  refine ⟨code, s', hrun, ?_⟩
  rcases hcase with ⟨-, hsame, -⟩ | ⟨-, hcb, hms, -, hd⟩
  · rw [hsame]
    exact ⟨h.frame rfl le_rfl, rfl, Nat.le_add_right _ _⟩
  · have hwork : s'.work cost = s.work cost + cost hnd := by
      have hsum := (hd.perm.map fun e : DelayHeapEntry => cost e.handler).sum_nat
      simp only [List.map_cons, List.sum_cons] at hsum
      have hqueue : s'.syncHandlers = s.syncHandlers := by rw [hd.same]
      rw [Svc.work, Svc.work, hqueue, hsum]
      omega
    have hheap : ∀ e ∈ s'.timedHandlersHeap.data,
        e.handler.callback.isSome = true ∧ 0 ≤ e.deadline := by
      intro e he
      rcases List.mem_cons.mp (hd.perm.mem_iff.mp he) with rfl | he
      · exact ⟨hcb, add_nonneg h.clock hms⟩
      · exact h.heap e he
    refine ⟨⟨?_, ?_, hheap⟩, ?_, hwork.le⟩
    · rw [hd.same]
      exact h.clock
    · rw [hd.same]
      exact h.queue
    · rw [hd.same]
      exact List.countP_cons_of_neg (by simp [Obs.isCall])

/-- **What `iosvc_stop` adds** is nothing. -/
theorem stop_spends (h : Callable s) :
    Callable (iosvcStop s).2 ∧ (iosvcStop s).2.calls = s.calls ∧
      (iosvcStop s).2.work cost ≤ s.work cost := by
  unfold iosvcStop
  split
  · exact ⟨h.frame rfl le_rfl, rfl, le_rfl⟩
  · exact ⟨h, rfl, le_rfl⟩
  · exact ⟨h, rfl, le_rfl⟩

variable (cost) in
/-- **A handler that only posts returns**, and what it has added is at most its work. -/
theorem exec_returns {script : Script} (hposts : script.posts = true) (h : Callable s) :
    ∃ s', exec script s = some s' ∧ Callable s' ∧ s'.calls = s.calls ∧
      s'.work cost ≤ s.work cost + script.work cost := by
  induction script generalizing s with
  | ret => exact ⟨s, rfl, h, rfl, Nat.le_add_right _ _⟩
  | tick dt rest ih =>
      have hle : s.clock ≤ s.clock + dt := by omega
      exact ih hposts (s := { s with clock := s.clock + dt }) (h.frame rfl hle)
  | user ints errs rest ih =>
      exact ih hposts (s := { s with ints := ints, errs := errs }) (h.frame rfl le_rfl)
  | call c inner rest _ ih =>
      simp only [Script.posts, Bool.and_eq_true] at hposts
      have hcall : ∃ code s₁, apiCall (exec inner) s c = some (code, s₁) ∧ Callable s₁ ∧
          s₁.calls = s.calls ∧ s₁.work cost ≤ s.work cost + c.work cost := by
        cases c with
        | post hnd => exact ⟨_, _, rfl, post_spends h hnd⟩
        | postDelay hnd status ms => exact postDelay_spends h hnd status ms
        | stop => exact ⟨_, _, rfl, stop_spends h⟩
        | sched | schedTimeout | cancel | reset | run => cases hposts.1
      obtain ⟨code, s₁, h₁, hc₁, hcalls₁, hwork₁⟩ := hcall
      obtain ⟨s', h', hc', hcalls', hwork'⟩ := ih hposts.2 hc₁
      refine ⟨s', by simp only [exec, h₁, bind, Option.bind_some, h'], hc',
        hcalls'.trans hcalls₁, ?_⟩
      simp only [Script.work]
      omega

end

section

variable {beh : Behaviour RbMem} {cost : IoHandler → ℕ}
  (hbeh : ∀ hnd s, (beh hnd s).posts = true) (hcost : ∀ hnd s, (beh hnd s).work cost < cost hnd)
  {s s' : Svc RbMem}

include hbeh hcost

/-- **A handler that is called returns**, and has posted less than its cost. -/
theorem callHandler_returns (h : Callable s) (cause : Cause) {hnd : IoHandler}
    (hcb : hnd.callback.isSome = true) :
    ∃ s', callHandler beh cause hnd s = some s' ∧ Callable s' ∧ s'.calls = s.calls + 1 ∧
      s'.work cost < s.work cost + cost hnd := by
  obtain ⟨c, hc⟩ := Option.isSome_iff_exists.mp hcb
  obtain ⟨s₀, hs₀⟩ : ∃ s₀, s₀ = s.note (.invoked cause hnd s.clock s.ints s.errs) := ⟨_, rfl⟩
  have hc₀ : Callable s₀ := by
    rw [hs₀]
    exact h.frame rfl le_rfl
  obtain ⟨s', hrun, hc', hcalls, hwork⟩ := exec_returns cost (hbeh hnd s₀) hc₀
  have hcalls₀ : s₀.calls = s.calls + 1 := by
    rw [hs₀, calls_note]
    rfl
  have hwork₀ : s₀.work cost = s.work cost := by
    rw [hs₀]
    rfl
  have hlt := hcost hnd s₀
  refine ⟨s', ?_, hc', hcalls.trans hcalls₀, by omega⟩
  simp only [callHandler, invoke, hc, ← hs₀, hrun]

/-- **The posted handlers** are all called: each call spends a part of the work. -/
theorem runSync_returns {fuel : ℕ} (h : Callable s) (hfuel : s.work cost < fuel) :
    ∃ s', runSyncHandlers beh fuel s = some s' ∧ Spends cost s s' := by
  induction fuel generalizing s with
  | zero => omega
  | succ fuel ih =>
      cases hq : s.syncHandlers.elems with
      | nil => exact ⟨s, by simp only [runSyncHandlers, hq], .refl h⟩
      | cons hnd rest =>
          obtain ⟨s₁, h₁, hc₁, hcalls₁, hwork₁⟩ :=
            callHandler_returns hbeh hcost h .post (h.queue hnd (hq ▸ List.mem_cons_self))
          obtain ⟨⟨l, hl⟩, -⟩ := callHandler_posts hbeh h₁
          obtain ⟨s₂, hs₂⟩ : ∃ s₂, s₂ = { s₁ with syncHandlers := s₁.syncHandlers.pop } := ⟨_, rfl⟩
          -- the handler is removed after it has returned
          have helems : s₁.syncHandlers.elems = hnd :: s₂.syncHandlers.elems := by
            have hqueue : s₁.syncHandlers.elems = (hnd :: rest) ++ _ := hq ▸ hl.queue
            rw [hs₂, CBuffer.pop, hqueue]
            rfl
          have hwork₂ : s₁.work cost = s₂.work cost + cost hnd := by
            have hheap : s₂.timedHandlersHeap = s₁.timedHandlersHeap := by rw [hs₂]
            rw [Svc.work, Svc.work, helems, hheap, List.map_cons, List.sum_cons]
            omega
          have hcalls₂ : s₂.calls = s.calls + 1 := by
            rw [← hcalls₁, hs₂]
            rfl
          have hc₂ : Callable s₂ := by
            refine ⟨?_, fun hnd' hmem => hc₁.queue hnd' (helems ▸ List.mem_cons_of_mem _ hmem), ?_⟩
            · rw [hs₂]
              exact hc₁.clock
            · rw [hs₂]
              exact hc₁.heap
          obtain ⟨s', h', hspends⟩ := ih hc₂ (by omega)
          refine ⟨s', ?_, Spends.trans ⟨hc₂, by omega, by omega⟩ hspends⟩
          simp only [runSyncHandlers, hq, h₁, bind, Option.bind_some, ← hs₂, h']

/-- **The first delayed handler** is called and removed. -/
theorem PostsOnly.timeoutDelay_returns (h : PostsOnly s) (hc : Callable s) {top : DelayHeapEntry}
    (htop : s.timedHandlersHeap.data[0]? = some top) (hdue : top.deadline ≤ s.clock) :
    ∃ s', timeoutDelay beh s = some s' ∧ Spends cost s s' ∧ s.calls < s'.calls := by
  obtain ⟨s₀, hs₀⟩ : ∃ s₀, s₀ = s.signal top.status .ok := ⟨_, rfl⟩
  have hsame : s₀ = { s with errs := s₀.errs } := by rw [hs₀, signal_eq]
  have hc₀ : Callable s₀ := by
    rw [hsame]
    exact hc.frame rfl le_rfl
  obtain ⟨s₁, h₁, hc₁, hcalls₁, hwork₁⟩ := callHandler_returns hbeh hcost hc₀ (.delay top .ok)
    (hc.heap top (List.mem_of_getElem? htop)).1
  obtain ⟨⟨l, hl⟩, -⟩ := callHandler_posts hbeh h₁
  have hordered : DelaysOrdered s₁.timedHandlersHeap.data := by
    refine hl.ordered ?_
    rw [hsame]
    exact h.ordered
  have htop₁ : s₁.timedHandlersHeap.data[0]? = some top := by
    refine hl.top top ?_ ?_ <;> rw [hsame]
    · exact htop
    · exact hdue
  obtain ⟨s', hpop, hsame', hperm, -⟩ := popDelay_spec hordered htop₁
  have hwork' : s₁.work cost = s'.work cost + cost top.handler := by
    have hsum := (hperm.map fun e : DelayHeapEntry => cost e.handler).sum_nat
    rw [List.map_cons, List.sum_cons] at hsum
    have hqueue : s'.syncHandlers = s₁.syncHandlers := by rw [hsame']
    rw [Svc.work, Svc.work, hqueue, hsum]
    omega
  have hcalls' : s'.calls = s.calls + 1 := by
    have hcalls₀ : s₀.calls = s.calls := by
      rw [hsame]
      rfl
    rw [← hcalls₀, ← hcalls₁, hsame']
    rfl
  have hwork₀ : s₀.work cost = s.work cost := by
    rw [hsame]
    rfl
  have hheap : ∀ e ∈ s'.timedHandlersHeap.data,
      e.handler.callback.isSome = true ∧ 0 ≤ e.deadline := fun e he =>
    hc₁.heap e (hperm.mem_iff.mpr (List.mem_cons_of_mem _ he))
  refine ⟨s', ?_, ⟨⟨?_, ?_, hheap⟩, by omega, by omega⟩, by omega⟩
  · rw [timeoutDelay_eq, htop, Option.bind_some, ← hs₀, h₁, Option.bind_some, hpop]
  · rw [hsame']
    exact hc₁.clock
  · rw [hsame']
    exact hc₁.queue

/-- **What follows a `poll`** that did not return 0 returns. -/
theorem PostInv.afterPoll_returns {fuel : ℕ} {pollTime elapsed : ℤ} (h : PostInv s)
    (hc : Callable s) (hfuel : 0 < fuel) {top : DelayHeapEntry}
    (htop : s.timedHandlersHeap.data[0]? = some top)
    (hnear : top.deadline ≤ pollTime + (2 ^ 31 - 1)) (hclock : s.clock = pollTime + elapsed)
    (helapsed : 0 ≤ elapsed) :
    ∃ s', IoEngine.afterPoll beh fuel s false (pollDelay top.deadline pollTime) elapsed = some s' ∧
      Spends cost s s' := by
  obtain ⟨fuel, rfl⟩ : ∃ n, fuel = n + 1 := ⟨fuel - 1, by omega⟩
  -- there is no `pollfd` to dispatch
  have hdispatch : ∀ {s₁ : Svc RbMem}, PostsOnly s₁ →
      dispatchReadyEvents beh (fuel + 1) s₁ s.clock = some s₁ := by
    intro s₁ h₁
    simp [dispatchReadyEvents, dispatchLoop, h₁.pollfds]
  unfold IoEngine.afterPoll timerDue
  split
  next hdue =>
    simp only [Bool.false_eq_true, if_false, bind, Option.bind_some, if_true, timeoutFirst]
    have hreached := (reached_of_pollDelay hnear hdue.2).2
    have hle := toInt_ofInt_le helapsed
    obtain ⟨s₁, h₁, hspends, -⟩ :=
      h.toPostsOnly.timeoutDelay_returns hbeh hcost hc htop (by omega)
    obtain ⟨hinv, -⟩ := h.timeoutDelay hbeh htop (by omega) h₁
    refine ⟨s₁, ?_, hspends⟩
    rw [h₁, Option.bind_some, hdispatch hinv.toPostsOnly]
  next =>
    simp only [Bool.false_eq_true, if_false, bind, Option.bind_some]
    exact ⟨s, hdispatch h.toPostsOnly, .refl hc⟩

/-- **An iteration from the call of `poll` on** returns. If the call timed out, a handler has been
called; if it failed, the service stops. -/
theorem PostInv.pollAndServe_returns {fuel : ℕ} (h : PostInv s) (hc : Callable s)
    (hfuel : 0 < fuel) (hne : s.timedHandlersHeap.data ≠ []) (o : PollOutcome) :
    ∃ s', IoEngine.pollAndServe beh fuel s o = some s' ∧ PostInv s' ∧ Spends cost s s' ∧
      (o.ends = true → s'.status = .stopping ∨ s.calls < s'.calls) := by
  obtain ⟨top, htop⟩ := exists_getElem? (List.length_pos_iff.mpr hne)
  have hnear := h.near top (List.mem_of_getElem? htop)
  have hpolled : ∀ {after : ℤ} (revents : List PollMask), 0 ≤ after →
      PostInv (IoEngine.pollReturns s after revents) ∧
        Spends cost s (IoEngine.pollReturns s after revents) :=
    fun revents hafter => ⟨h.pollReturns hafter revents,
      hc.frame rfl (show s.clock ≤ s.clock + _ by omega), le_rfl, le_rfl⟩
  have hserved : ∀ (after : ℕ) (revents : List PollMask), ∃ s',
      IoEngine.afterPoll beh fuel (IoEngine.pollReturns s after revents) false
        (pollDelay top.deadline s.clock) after = some s' ∧ Spends cost s s' := by
    intro after revents
    obtain ⟨hinv, hpoll⟩ := hpolled revents (Int.natCast_nonneg after)
    obtain ⟨s', h', hspends⟩ := hinv.afterPoll_returns hbeh hcost hpoll.callable hfuel htop hnear
      rfl (Int.natCast_nonneg after)
    exact ⟨s', h', hpoll.trans hspends⟩
  cases o with
  | expired late =>
      have hdelay : pollDelay top.deadline s.clock ≠ -1 :=
        pollDelay_ne (hc.heap top (List.mem_of_getElem? htop)).2 hnear
      have hreached := reached_of_pollDelay hnear hdelay
      have hafter : 0 ≤ pollDelay top.deadline s.clock + late := by omega
      obtain ⟨hinv, hpoll⟩ := hpolled [] hafter
      obtain ⟨s', h', hspends, hcalls⟩ :=
        hinv.toPostsOnly.timeoutDelay_returns hbeh hcost hpoll.callable htop
          (show top.deadline ≤ s.clock + (pollDelay top.deadline s.clock + late) by omega)
      have hrun : IoEngine.pollAndServe beh fuel s (.expired late) = some s' := by
        simp only [IoEngine.pollAndServe, h.nextDeadline htop, currentTime]
        rw [if_neg (by omega)]
        exact h'
      exact ⟨s', hrun, (h.pollAndServe hbeh hne rfl hrun).1, hpoll.trans hspends,
        fun _ => .inr hcalls⟩
  | interrupted after revents =>
      obtain ⟨s', h', hspends⟩ := hserved after revents
      have hrun : IoEngine.pollAndServe beh fuel s (.interrupted after revents) = some s' := by
        simp only [IoEngine.pollAndServe, h.nextDeadline htop, currentTime]
        exact h'
      exact ⟨s', hrun, (h.pollAndServe hbeh hne rfl hrun).1, hspends, by simp [PollOutcome.ends]⟩
  | ready after revents =>
      obtain ⟨s', h', hspends⟩ := hserved after revents
      have hrun : IoEngine.pollAndServe beh fuel s (.ready after revents) = some s' := by
        simp only [IoEngine.pollAndServe, h.nextDeadline htop, currentTime]
        exact h'
      exact ⟨s', hrun, (h.pollAndServe hbeh hne rfl hrun).1, hspends, by simp [PollOutcome.ends]⟩
  | failed after =>
      obtain ⟨hinv, hpoll⟩ := hpolled [] (Int.natCast_nonneg after)
      exact ⟨_, rfl, ⟨⟨hinv.pollfds, hinv.timed, hinv.root, hinv.ordered, hinv.near⟩,
        hinv.accounts.frame rfl le_rfl⟩, ⟨hpoll.callable.frame rfl le_rfl, le_rfl, le_rfl⟩,
        fun _ => .inl rfl⟩

/-! ### The stop and the loop -/

omit hbeh hcost in
/-- **Every target of the stop** is called once. -/
theorem StopRun.calls {now : ℤ} {ts : List StopTarget} (h : StopRun beh now s ts s')
    (hst : s.status = .stopping) : s'.calls = s.calls + ts.length := by
  induction h with
  | done h => rw [Svc.calls, h.log, List.length_nil, Svc.calls, Nat.add_zero]
  | @stop s s₁ s₂ s' t ts h hrun _ ih =>
      have hst₀ : (t.signal now s₁).status = .stopping := h.status.trans hst
      obtain ⟨s₂', hrun', hidle⟩ :=
        callHandler_stopping hst₀ beh (t.cause now) (isSome_of_callHandler hrun)
      obtain rfl := Option.some.inj (hrun.symm.trans hrun')
      have hcalls : s₂.calls = s.calls + 1 := by
        rw [hidle.same, Svc.calls, Svc.calls, ← h.log]
        exact List.countP_cons_of_pos rfl
      rw [ih (by rw [hidle.same]; exact hst₀), hcalls, List.length_cons]
      omega

/-- **The stop** calls what waits in the heap, and spends the work of it. -/
theorem PostInv.prepStop_returns (h : PostInv s) (hc : Callable s) (hst : s.status = .stopping)
    (hq : s.syncHandlers.elems = []) :
    ∃ s', iosvcPrepStop beh s = some s' ∧ Spends cost s s' := by
  obtain ⟨s₁, h₁, hquiet, hstop⟩ := stopDelayed_spec beh 0 (i := 0) hst
    (fun ent he => (hc.heap ent he).1) (Nat.zero_le _) (Nat.lt_succ_self _)
  have hroot : s₁.asyncHandlers.root = none := by rw [hquiet.tree, h.root]
  have hcalls : s₁.calls = s.calls + s.timedHandlersHeap.data.length := by
    rw [hstop.calls hst, List.drop_zero, List.length_map]
  have hq₁ : s₁.syncHandlers.elems = [] := by rw [hquiet.same, hq]
  have hlength := length_le_work (fun hnd => (Nat.zero_le _).trans_lt (hcost hnd s)) s
  obtain ⟨s', hs'⟩ : ∃ s', s' = { s₁ with
      timedHandlersHeap := s₁.timedHandlersHeap.clear
      timedEventsHeap := s₁.timedEventsHeap.clear
      pollfds := s₁.pollfds.clear
      asyncHandlers := { s₁.asyncHandlers with root := none } } := ⟨_, rfl⟩
  have hrun : iosvcPrepStop beh s = some s' := by
    simp only [iosvcPrepStop, h₁, hroot, stopAsyncOps, bind, Option.bind_some, hs']
  obtain ⟨-, hq', hheap', -⟩ := h.prepStop hbeh hst hq hrun
  have hcalls' : s'.calls = s.calls + s.timedHandlersHeap.data.length := by
    rw [← hcalls, hs']
    rfl
  have hwork' : s'.work cost = 0 := by
    rw [Svc.work, hq', hheap']
    rfl
  have hclock : s.clock ≤ s'.clock := by
    rw [hs']
    exact hquiet.clock
  exact ⟨s', hrun, ⟨hc.clock.trans hclock, by simp [hq'], by simp [hheap']⟩, by omega, by omega⟩

/-- **The loop of `iosvc_run` returns** with nothing left to be called, if enough calls of `poll`
time out or one fails, or the service stops. -/
theorem PostInv.runLoop_returns {fuel : ℕ} {outcomes : List PollOutcome} (h : PostInv s)
    (hc : Callable s)
    (hpoll : s.status = .stopping ∨ s.work cost ≤ outcomes.countP PollOutcome.ends)
    (hfuel : s.work cost + outcomes.length + 2 ≤ fuel) :
    ∃ s', IoEngine.runLoop beh fuel outcomes s = some s' ∧ PostInv s' ∧
      s'.syncHandlers.elems = [] ∧ s'.timedHandlersHeap.data = [] ∧ Spends cost s s' := by
  induction fuel generalizing outcomes s with
  | zero => omega
  | succ fuel ih =>
      rw [IoEngine.runLoop]
      split
      next hend => exact ⟨s, rfl, h, hend.2.2, hend.2.1, .refl hc⟩
      next =>
        obtain ⟨s₁, h₁, hspends₁⟩ :=
          runSync_returns hbeh hcost hc (show s.work cost < fuel by omega)
        obtain ⟨hinv₁, hq₁, calls₁, hcalls₁⟩ := h.runSync hbeh h₁
        have hst₁ := hcalls₁.status hbeh
        have htotal₁ := hspends₁.total
        have hmore₁ := hspends₁.calls
        simp only [h₁, bind, Option.bind_some]
        split
        next hst =>
          obtain ⟨s', h', hspends⟩ := hinv₁.prepStop_returns hbeh hcost hspends₁.callable hst hq₁
          obtain ⟨hinv, hq, hheap, -⟩ := hinv₁.prepStop hbeh hst hq₁ h'
          exact ⟨s', h', hinv, hq, hheap, hspends₁.trans hspends⟩
        next hst =>
          have hcount : s.work cost ≤ outcomes.countP PollOutcome.ends := by
            refine hpoll.resolve_left fun hstopping => hst ?_
            rw [hst₁, hstopping, ite_self]
          split
          next hend =>
            -- the next iteration finds nothing left
            obtain ⟨fuel, rfl⟩ : ∃ n, fuel = n + 1 := ⟨fuel - 1, by omega⟩
            refine ⟨s₁, ?_, hinv₁, hq₁, hend.2, hspends₁⟩
            rw [IoEngine.runLoop, if_pos ⟨hend.1, hend.2, hq₁⟩]
          next hne =>
            have hheap₁ : s₁.timedHandlersHeap.data ≠ [] := fun hc => hne ⟨hinv₁.pollfds, hc⟩
            cases outcomes with
            | nil =>
                have hpos := length_le_work (fun hnd => (Nat.zero_le _).trans_lt (hcost hnd s₁)) s₁
                have := List.length_pos_iff.mpr hheap₁
                rw [List.countP_nil] at hcount
                omega
            | cons o outcomes =>
                simp only [List.countP_cons] at hcount
                simp only [List.length_cons] at hfuel
                obtain ⟨s₂, h₂, hinv₂, hspends₂, hends⟩ := hinv₁.pollAndServe_returns hbeh hcost
                  hspends₁.callable (show 0 < fuel by omega) hheap₁ o
                have htotal₂ := hspends₂.total
                have hmore₂ := hspends₂.calls
                have hpoll₂ : s₂.status = .stopping ∨
                    s₂.work cost ≤ outcomes.countP PollOutcome.ends := by
                  by_cases ho : o.ends = true
                  · rw [if_pos ho] at hcount
                    exact (hends ho).imp_right fun _ => by omega
                  · rw [if_neg ho] at hcount
                    exact .inr (by omega)
                obtain ⟨s', h', hinv, hq, hheap, hspends⟩ :=
                  ih hinv₂ hspends₂.callable hpoll₂ (by omega)
                refine ⟨s', ?_, hinv, hq, hheap, hspends₁.trans (hspends₂.trans hspends)⟩
                simp only [h₂, Option.bind_some, h']

/-- **A run comes to an end.** On a new service let handlers be posted, with and without a delay,
before `iosvc_run` and by the handlers, which may stop the service and do nothing else. Let every
handler have a cost that is greater than the costs of all the handlers it posts together. If as
many calls of `poll` time out or fail as the cost of what was posted before `iosvc_run`, then
`iosvc_run` returns, however the calls of `poll` that time out, fail, are interrupted or report
ready fds follow one another. The service has then called everything that was accepted, with no
more calls than that cost, and nothing is left in the queue and in the heap. -/
theorem postRun_returns {alloc : Alloc} {clock : ℤ} (hclock : 0 ≤ clock) {ints : Addr → Int32}
    {errs : Addr → IoErrcode} {before : Script} (hbefore : before.posts = true) {fuel : ℕ}
    {outcomes : List PollOutcome}
    (hpoll : before.work cost ≤ outcomes.countP PollOutcome.ends)
    (hfuel : before.work cost + outcomes.length + 2 ≤ fuel) :
    ∃ s code s', exec before (iosvcCreate alloc clock ints errs) = some s ∧
      iosvcRun beh fuel outcomes s = some (code, s') ∧ s'.status = .done ∧
      s'.told Obs.invokedPost = s'.told Obs.acceptedPost ∧
      (s'.told Obs.invokedDelay).Perm (s'.told Obs.acceptedDelay) ∧
      s'.syncHandlers.elems = [] ∧ s'.timedHandlersHeap.data = [] ∧
      s'.calls ≤ before.work cost := by
  have hnew : Callable (iosvcCreate (τ := RbMem) alloc clock ints errs) :=
    ⟨hclock, by simp [iosvcCreate, CBuffer.init], by simp [iosvcCreate, DynArray.init]⟩
  obtain ⟨s, hs, hc, hcalls, hwork⟩ := exec_returns cost hbefore hnew
  obtain ⟨hst, hinv⟩ := PostInv.of_started hbefore hs
  have hwork₀ : s.work cost ≤ before.work cost := hwork.trans (Nat.zero_add _).le
  have hc₁ : Callable { s with status := .running } := hc.frame rfl le_rfl
  have henough : s.work cost + outcomes.length + 2 ≤ fuel := by omega
  obtain ⟨s', hrun, hinv', hq, hheap, hspends⟩ :=
    hinv.runLoop_returns hbeh hcost hc₁ (.inr (hwork₀.trans hpoll)) henough
  obtain ⟨hposts, hdelays⟩ := hinv'.closed hq hheap
  refine ⟨s, if s'.status = .running then .ok else .stopped, { s' with status := .done }, hs, ?_,
    rfl, hposts, hdelays, hq, hheap, ?_⟩
  · simp only [iosvcRun, runRefused, hst, bind, Option.bind_some, hrun]
  · have htotal : s'.calls + s'.work cost ≤ s.calls + s.work cost := hspends.total
    have hzero : (iosvcCreate (τ := RbMem) alloc clock ints errs).calls = 0 := rfl
    have hsame : Svc.calls { s' with status := .done } = s'.calls := rfl
    omega

end

/-- The cost of a handler of `postingBeh`: handler 1 posts two others. -/
def postingCost (hnd : IoHandler) : ℕ := if hnd.callback = some 1 then 3 else 1

/-- Five handlers at most are called before the run ends, in whatever way `poll` is interrupted. -/
theorem postRun_returns_posting :
    ∃ s code s', exec postingScript (newService 0 (fun _ => 0) fun _ => .ok) = some s ∧
      iosvcRun postingBeh 14 ([.interrupted 1 [], .ready 0 []] ++ .replicate 5 (.expired 0)) s =
        some (code, s') ∧ s'.status = .done ∧
      s'.told Obs.invokedPost = s'.told Obs.acceptedPost ∧
      (s'.told Obs.invokedDelay).Perm (s'.told Obs.acceptedDelay) ∧
      s'.syncHandlers.elems = [] ∧ s'.timedHandlersHeap.data = [] ∧ s'.calls ≤ 5 := by
  have hbeh : ∀ hnd s, (postingBeh hnd s).posts = true ∧
      (postingBeh hnd s).work postingCost < postingCost hnd := by
    intro hnd s
    unfold postingBeh postingCost
    split
    · exact ⟨rfl, by decide⟩
    · split
      · exact ⟨rfl, by decide⟩
      · exact ⟨rfl, by decide⟩
  exact postRun_returns (fun hnd s => (hbeh hnd s).1)
    (fun hnd s => (hbeh hnd s).2) le_rfl rfl (by decide) (by decide)

end IoEngine
