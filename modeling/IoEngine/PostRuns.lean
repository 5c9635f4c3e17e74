import IoEngine.Posting

/-!
# Runs of Services That Only Post

The event loop of a service without events, from its creation to the end of `iosvc_run`. The
invariant of the loop (`PostInv`) says that what was accepted is what was called and what waits
in the queue and in the heap.

## Main results

* `PostInv.runSync`, `PostInv.timeoutDelay`, `PostInv.prepStop`: each part of the loop **calls
  what it removes**, and keeps the invariant.
* `PostInv.runLoop`: the loop leaves the queue and the heap **empty**.
* `postRun_accounts`: **the accounts of a whole run**.
-/

namespace IoEngine

open Svc

/-! ### The accounts -/

/-- **The accounts of a service** in which `posts` and `delays` are still to be called: posted
handlers are called in the order in which they were accepted; delayed handlers are called as they
should, and those that are called with `EIO_OK` in the order of their deadlines. -/
structure Accounts {τ : Type} (s : Svc τ) (posts : List IoHandler)
    (delays : List DelayHeapEntry) : Prop where
  posted : s.told Obs.acceptedPost = s.told Obs.invokedPost ++ posts
  delayed : (s.told Obs.acceptedDelay).Perm (s.told Obs.invokedDelay ++ delays)
  signalled : ∀ o ∈ s.log, o.DelaySignalled
  sorted : (s.told Obs.completedDelay).Pairwise fun d e => d.deadline ≤ e.deadline
  past : ∀ d ∈ s.told Obs.completedDelay, d.deadline ≤ s.clock
  ahead : ∀ d ∈ s.told Obs.completedDelay, ∀ e ∈ delays, d.deadline ≤ e.deadline

namespace Accounts

variable {τ : Type} {s s' : Svc τ} {posts : List IoHandler} {delays delays' : List DelayHeapEntry}

/-- The accounts depend on the log and the clock only. -/
theorem frame (h : Accounts s posts delays) (hlog : s'.log = s.log) (hclock : s.clock ≤ s'.clock) :
    Accounts s' posts delays := by
  have htold : ∀ {α : Type} (f : Obs → Option α), s'.told f = s.told f := fun f => by
    rw [told, told, hlog]
  refine ⟨?_, ?_, hlog ▸ h.signalled, ?_, fun d hd => ?_, ?_⟩
  · rw [htold, htold, h.posted]
  · rw [htold, htold]
    exact h.delayed
  · rw [htold]
    exact h.sorted
  · rw [htold] at hd
    exact (h.past d hd).trans hclock
  · rw [htold]
    exact h.ahead

/-- The order of the delayed handlers does not matter. -/
theorem perm (h : Accounts s posts delays) (hp : delays.Perm delays') : Accounts s posts delays' :=
  { h with
    delayed := h.delayed.trans (hp.append_left _)
    ahead := fun d hd e he => h.ahead d hd e (hp.mem_iff.mpr he) }

/-- **What a handler posts** is still to be called; it has no deadline in the past. -/
theorem of_posted (h : Accounts s posts delays) {l : List Obs} (hp : Posted s s' l) :
    Accounts s' (posts ++ l.filterMap Obs.acceptedPost)
      (delays ++ l.filterMap Obs.acceptedDelay) := by
  have hcompleted := hp.told Obs.completedDelay fun _ _ => rfl
  refine ⟨?_, ?_, fun o ho => ?_, ?_, fun d hd => ?_, fun d hd e he => ?_⟩
  · rw [told_of_log hp.log, hp.told Obs.invokedPost fun _ _ => rfl, h.posted, List.append_assoc]
  · rw [told_of_log hp.log, hp.told Obs.invokedDelay fun _ _ => rfl, ← List.append_assoc]
    exact h.delayed.append_right _
  · rw [hp.log, List.mem_append, List.mem_reverse] at ho
    rcases ho with ho | ho
    · obtain ⟨what, time, rfl⟩ := hp.accepted o ho
      trivial
    · exact h.signalled o ho
  · rw [hcompleted]
    exact h.sorted
  · rw [hcompleted] at hd
    exact (h.past d hd).trans hp.clock
  · rw [hcompleted] at hd
    rcases List.mem_append.mp he with he | he
    · exact h.ahead d hd e he
    · exact (h.past d hd).trans (hp.deadlines e he).1

/-- **A handler is called** and is no longer to be called. If it is a delayed one and called with
`EIO_OK`, it is due, and no other one has a lower deadline. -/
theorem call_starts (h : Accounts s posts delays) {o : Obs} {posts' : List IoHandler}
    (haccepted : o.acceptedPost = none ∧ o.acceptedDelay = none)
    (hposts : posts = o.invokedPost.toList ++ posts')
    (hdelays : delays.Perm (o.invokedDelay.toList ++ delays')) (hsignalled : o.DelaySignalled)
    (hcompleted : ∀ d, o.completedDelay = some d → d ∈ delays ∧ d.deadline ≤ s.clock ∧
      ∀ e ∈ delays', d.deadline ≤ e.deadline) : Accounts (s.note o) posts' delays' where
  posted := by
    rw [told_note, told_note, h.posted, hposts, haccepted.1]
    simp
  delayed := by
    rw [told_note, told_note, haccepted.2, List.append_assoc]
    simpa using h.delayed.trans (hdelays.append_left _)
  signalled := fun e he => (List.mem_cons.mp he).elim (fun he => he ▸ hsignalled) (h.signalled e)
  sorted := by
    rw [told_note, List.pairwise_append]
    refine ⟨h.sorted, ?_, fun d hd e he => ?_⟩
    · cases o.completedDelay <;> simp
    · exact h.ahead d hd e (hcompleted e (by simpa using he)).1
  past := fun d hd => by
    rw [told_note, List.mem_append] at hd
    rcases hd with hd | hd
    · exact h.past d hd
    · exact (hcompleted d (by simpa using hd)).2.1
  ahead := fun d hd e he => by
    rw [told_note, List.mem_append] at hd
    rcases hd with hd | hd
    · exact h.ahead d hd e (hdelays.mem_iff.mpr (List.mem_append_right _ he))
    · exact (hcompleted d (by simpa using hd)).2.2 e he

/-- **A delayed handler is called**, its code in its status variable. -/
theorem delay_starts (h : Accounts s posts delays) {ent : DelayHeapEntry} {code : IoErrcode}
    (hdelays : delays.Perm (ent :: delays'))
    (hcode : (code = .ok ∧ ent.deadline ≤ s.clock ∧ ∀ e ∈ delays', ent.deadline ≤ e.deadline) ∨
      code = .stopped) {s₀ : Svc τ} (hs₀ : s₀ = s.signal ent.status code) :
    Accounts (s₀.note (.invoked (.delay ent code) ent.handler s₀.clock s₀.ints s₀.errs)) posts
      delays' := by
  have hclock : s₀.clock = s.clock := by rw [hs₀, signal_eq]
  have h₀ : Accounts s₀ posts delays := h.frame (by rw [hs₀, signal_eq]) hclock.ge
  refine h₀.call_starts ⟨rfl, rfl⟩ rfl hdelays ⟨rfl, ?_, ?_⟩ fun d hd => ?_
  · intro p hp
    rw [hs₀, hp]
    exact Function.update_self ..
  · rw [hclock]
    exact hcode.imp_left fun hok => ⟨hok.1, hok.2.1⟩
  · rcases hcode with ⟨rfl, hdue, hle⟩ | rfl
    · obtain rfl := Option.some.inj hd
      exact ⟨hdelays.mem_iff.mpr (by simp), hclock ▸ hdue, hle⟩
    · cases hd

end Accounts

/-! ### The loop -/

/-- Nothing but handlers is pending, and the delayed ones are in heap order. -/
structure PostsOnly (s : Svc RbMem) : Prop where
  pollfds : s.pollfds.data = []
  timed : s.timed = []
  root : s.asyncHandlers.root = none
  ordered : DelaysOrdered s.timedHandlersHeap.data
  near : ∀ e ∈ s.timedHandlersHeap.data, e.deadline ≤ s.clock + (2 ^ 31 - 1)

/-- A note is not an event. -/
theorem PostsOnly.note {s : Svc RbMem} (h : PostsOnly s) (o : Obs) : PostsOnly (s.note o) :=
  ⟨h.pollfds, h.timed, h.root, h.ordered, h.near⟩

/-- What posted handlers do leaves the service without events. -/
theorem PostsOnly.of_posted {s s' : Svc RbMem} {l : List Obs} (h : PostsOnly s)
    (hp : Posted s s' l) : PostsOnly s' where
  pollfds := by rw [hp.same]; exact h.pollfds
  timed := by rw [hp.same]; exact h.timed
  root := by rw [hp.same]; exact h.root
  ordered := hp.ordered h.ordered
  near := fun e he => by
    rcases List.mem_append.mp (hp.heap.mem_iff.mp he) with he | he
    · exact (h.near e he).trans (by have := hp.clock; omega)
    · exact (hp.deadlines e he).2

/-- **The invariant of the loop**: what waits in the queue and in the heap is what is still to
be called. -/
structure PostInv (s : Svc RbMem) : Prop extends PostsOnly s where
  accounts : Accounts s s.syncHandlers.elems s.timedHandlersHeap.data

/-- A deadline that an `int` delay can have set has been reached when the delay given to `poll`
is over. -/
theorem reached_of_pollDelay {deadline pollTime : ℤ}
    (hnear : deadline ≤ pollTime + (2 ^ 31 - 1)) (hdelay : pollDelay deadline pollTime ≠ -1) :
    0 ≤ pollDelay deadline pollTime ∧ deadline ≤ pollTime + pollDelay deadline pollTime := by
  unfold pollDelay at hdelay ⊢
  split
  next h => simp [h] at hdelay
  next =>
    split
    · rw [Int32.toInt_ofInt_of_le (by omega) (by omega)]
      omega
    · omega

/-- A time that has passed is not less than its `int` conversion. -/
theorem toInt_ofInt_le {elapsed : ℤ} (h : 0 ≤ elapsed) : (Int32.ofInt elapsed).toInt ≤ elapsed := by
  by_cases hlt : elapsed < 2 ^ 31
  · rw [Int32.toInt_ofInt_of_le (by omega) hlt]
  · have := Int32.toInt_lt (Int32.ofInt elapsed)
    omega

/-- A call of `poll` keeps the invariant. -/
theorem PostInv.pollReturns {s : Svc RbMem} (h : PostInv s) {after : ℤ} (hafter : 0 ≤ after)
    (revents : List PollMask) : PostInv (pollReturns s after revents) := by
  have hclock : s.clock ≤ (IoEngine.pollReturns s after revents).clock :=
    show s.clock ≤ s.clock + after by omega
  refine ⟨⟨?_, h.timed, h.root, h.ordered, fun e he => ?_⟩, h.accounts.frame rfl hclock⟩
  · simp [IoEngine.pollReturns, h.pollfds, setRevents]
  · exact (h.near e he).trans (by omega)

/-- The next deadline is that of the first delayed handler. -/
theorem PostsOnly.nextDeadline {s : Svc RbMem} (h : PostsOnly s) {top : DelayHeapEntry}
    (htop : s.timedHandlersHeap.data[0]? = some top) :
    IoEngine.nextDeadline s = (top.deadline, false) := by
  simp [IoEngine.nextDeadline, h.timed, htop]

/-- The call of `poll` fails for another reason than an interruption. -/
def PollOutcome.fails : PollOutcome → Bool
  | .failed _ => true
  | _ => false

section

variable {beh : Behaviour RbMem} (hbeh : ∀ hnd s, (beh hnd s).posts = true)
  {s s₁ s' : Svc RbMem}

include hbeh

/-- **The posted handlers** are called until the queue is empty. -/
theorem PostInv.runSync {fuel : ℕ} (h : PostInv s)
    (hrun : runSyncHandlers beh fuel s = some s') :
    PostInv s' ∧ s'.syncHandlers.elems = [] ∧ ∃ calls, CallChain beh s calls s' := by
  induction fuel generalizing s with
  | zero => cases hrun
  | succ fuel ih =>
      cases hq : s.syncHandlers.elems with
      | nil =>
          simp only [runSyncHandlers, hq, Option.some.injEq] at hrun
          subst hrun
          exact ⟨h, hq, [], .done (.refl s)⟩
      | cons hnd rest =>
          simp only [runSyncHandlers, hq] at hrun
          obtain ⟨s₁, h₁, hrun⟩ := Option.bind_eq_some_iff.mp hrun
          obtain ⟨⟨l, hl⟩, hchain⟩ := callHandler_posts hbeh h₁
          have hacc : Accounts s (hnd :: rest) s.timedHandlersHeap.data := hq ▸ h.accounts
          have hstart : Accounts (s.note (.invoked .post hnd s.clock s.ints s.errs)) rest
              s.timedHandlersHeap.data :=
            hacc.call_starts ⟨rfl, rfl⟩ rfl (.refl _) trivial (by simp [Obs.completedDelay])
          have hafter := (hstart.of_posted hl).perm hl.heap.symm
          -- the handler that has returned is still the first one in the queue
          have hpop : s₁.syncHandlers.pop.elems = rest ++ l.filterMap Obs.acceptedPost := by
            rw [CBuffer.pop, hl.queue]
            simp [note, hq]
          have honly := (h.note (.invoked .post hnd s.clock s.ints s.errs)).of_posted hl
          have hinv : PostInv { s₁ with syncHandlers := s₁.syncHandlers.pop } :=
            ⟨⟨honly.pollfds, honly.timed, honly.root, honly.ordered, honly.near⟩,
              hpop ▸ hafter.frame rfl le_rfl⟩
          have hworking : Working s₁ { s₁ with syncHandlers := s₁.syncHandlers.pop } :=
            ⟨rfl, le_rfl, rfl⟩
          obtain ⟨hinv', hempty, calls, hcalls⟩ := ih hinv hrun
          exact ⟨hinv', hempty, _, hchain.trans (hcalls.of_working hworking)⟩

/-- **The first delayed handler** is called while its entry is still in the heap, and the same
entry is removed afterwards. -/
theorem PostInv.timeoutDelay (h : PostInv s) {top : DelayHeapEntry}
    (htop : s.timedHandlersHeap.data[0]? = some top) (hdue : top.deadline ≤ s.clock)
    (hrun : IoEngine.timeoutDelay beh s = some s') :
    PostInv s' ∧ ∃ calls, CallChain beh s calls s' := by
  rw [timeoutDelay_eq, htop, Option.bind_some] at hrun
  obtain ⟨s₁, h₁, hpop⟩ := Option.bind_eq_some_iff.mp hrun
  obtain ⟨⟨l, hl⟩, hchain⟩ := callHandler_posts hbeh h₁
  obtain ⟨rest, hrest⟩ : ∃ rest, s.timedHandlersHeap.data = top :: rest := by
    cases hd : s.timedHandlersHeap.data with
    | nil => simp [hd] at htop
    | cons x rest => exact ⟨rest, by simpa [hd] using htop⟩
  obtain ⟨s₀, hs₀⟩ : ∃ s₀, s₀ = s.signal top.status .ok := ⟨_, rfl⟩
  rw [← hs₀] at h₁ hl hchain
  have hsame : s₀ = { s with errs := s₀.errs } := by rw [hs₀, signal_eq]
  have hleast : ∀ e ∈ rest, top.deadline ≤ e.deadline := fun e he =>
    h.ordered.le_deadline htop (hrest ▸ List.mem_cons_of_mem _ he)
  have hstart := h.accounts.delay_starts (.of_eq hrest) (.inl ⟨rfl, hdue, hleast⟩) hs₀
  have hafter := hstart.of_posted hl
  have honly₀ : PostsOnly s₀ := by
    rw [hsame]
    exact ⟨h.pollfds, h.timed, h.root, h.ordered, h.near⟩
  have honly := (honly₀.note _).of_posted hl
  -- the handler may have added entries, but none in front of its own
  have htop₁ : s₁.timedHandlersHeap.data[0]? = some top := by
    refine hl.top top ?_ ?_ <;> rw [hsame]
    · exact htop
    · exact hdue
  obtain ⟨s₂, hpop₂, hsame₂, hperm, hordered⟩ := popDelay_spec honly.ordered htop₁
  obtain rfl := Option.some.inj (hpop.symm.trans hpop₂)
  have hrest₁ : (rest ++ l.filterMap Obs.acceptedDelay).Perm s'.timedHandlersHeap.data := by
    have hheap := hl.heap
    rw [hsame] at hheap
    exact ((hperm.symm.trans hheap).trans (.of_eq (by simp [note, hrest]))).cons_inv.symm
  have hqueue : s'.syncHandlers.elems =
      s.syncHandlers.elems ++ l.filterMap Obs.acceptedPost := by
    rw [hsame₂]
    exact hl.queue.trans (by rw [hsame]; rfl)
  have hworking : Working s₁ s' := by
    rw [hsame₂]
    exact ⟨rfl, le_rfl, rfl⟩
  refine ⟨⟨?_, ?_⟩, _, (hchain.of_working ?_).trans (.done hworking)⟩
  · have hmem : ∀ e ∈ s'.timedHandlersHeap.data, e ∈ s₁.timedHandlersHeap.data := fun e he =>
      hperm.mem_iff.mpr (List.mem_cons_of_mem _ he)
    rw [hsame₂] at hmem hordered ⊢
    exact ⟨honly.pollfds, honly.timed, honly.root, hordered, fun e he => honly.near e (hmem e he)⟩
  · rw [hqueue]
    exact (hafter.perm hrest₁).frame hworking.log hworking.clock
  · rw [hsame]
    exact ⟨rfl, le_rfl, rfl⟩

/-- **What follows a `poll`** that did not return 0: the first handler is called if it is due. -/
theorem PostInv.afterPoll {fuel : ℕ} {pollTime elapsed : ℤ} (h : PostInv s)
    {top : DelayHeapEntry} (htop : s.timedHandlersHeap.data[0]? = some top)
    (hnear : top.deadline ≤ pollTime + (2 ^ 31 - 1)) (hclock : s.clock = pollTime + elapsed)
    (helapsed : 0 ≤ elapsed)
    (hrun : afterPoll beh fuel s false (pollDelay top.deadline pollTime) elapsed = some s') :
    PostInv s' ∧ ∃ calls, CallChain beh s calls s' := by
  -- there is no `pollfd` to dispatch
  have hdispatch : ∀ {s₁ s₂ : Svc RbMem} {now : ℤ}, PostsOnly s₁ →
      dispatchReadyEvents beh fuel s₁ now = some s₂ → s₁ = s₂ := by
    intro s₁ s₂ now h₁ hrun
    cases fuel with
    | zero => cases hrun
    | succ fuel => simpa [dispatchReadyEvents, dispatchLoop, h₁.pollfds] using hrun
  unfold IoEngine.afterPoll timerDue at hrun
  split at hrun
  next hdue =>
    simp only [Bool.false_eq_true, if_false, bind, Option.bind_some, if_true, timeoutFirst] at hrun
    obtain ⟨s₁, h₁, hrun⟩ := Option.bind_eq_some_iff.mp hrun
    have hreached := (reached_of_pollDelay hnear hdue.2).2
    have hle := toInt_ofInt_le helapsed
    obtain ⟨hinv, calls, hcalls⟩ := h.timeoutDelay hbeh htop (by omega) h₁
    obtain rfl := hdispatch hinv.toPostsOnly hrun
    exact ⟨hinv, calls, hcalls⟩
  next =>
    simp only [Bool.false_eq_true, if_false, bind, Option.bind_some] at hrun
    obtain rfl := hdispatch h.toPostsOnly hrun
    exact ⟨h, [], .done (.refl s)⟩

/-- **An iteration from the call of `poll` on.** -/
theorem PostInv.pollAndServe {fuel : ℕ} {o : PollOutcome} (h : PostInv s)
    (hne : s.timedHandlersHeap.data ≠ []) (ho : o.fails = false)
    (hrun : pollAndServe beh fuel s o = some s') :
    PostInv s' ∧ ∃ calls, CallChain beh s calls s' := by
  obtain ⟨top, htop⟩ := exists_getElem? (List.length_pos_iff.mpr hne)
  have hnear := h.near top (List.mem_of_getElem? htop)
  simp only [IoEngine.pollAndServe, h.nextDeadline htop, currentTime] at hrun
  have hpoll : ∀ {after : ℤ} (revents : List PollMask), 0 ≤ after →
      Working s (IoEngine.pollReturns s after revents) := fun revents hafter =>
    ⟨rfl, by simpa [IoEngine.pollReturns] using hafter, rfl⟩
  cases o with
  | expired late =>
      simp only at hrun
      split at hrun
      next => cases hrun
      next hpos =>
        have hreached := reached_of_pollDelay hnear (by omega)
        have hafter : 0 ≤ pollDelay top.deadline s.clock + late := by omega
        obtain ⟨hinv, calls, hcalls⟩ := (h.pollReturns hafter []).timeoutDelay hbeh htop
          (show top.deadline ≤ s.clock + (pollDelay top.deadline s.clock + late) by omega) hrun
        exact ⟨hinv, calls, hcalls.of_working (hpoll [] hafter)⟩
  | interrupted after revents =>
      obtain ⟨hinv, calls, hcalls⟩ := (h.pollReturns (Int.natCast_nonneg after) revents).afterPoll
        hbeh htop hnear rfl (Int.natCast_nonneg after) hrun
      exact ⟨hinv, calls, hcalls.of_working (hpoll revents (Int.natCast_nonneg after))⟩
  | failed after => cases ho
  | ready after revents =>
      obtain ⟨hinv, calls, hcalls⟩ := (h.pollReturns (Int.natCast_nonneg after) revents).afterPoll
        hbeh htop hnear rfl (Int.natCast_nonneg after) hrun
      exact ⟨hinv, calls, hcalls.of_working (hpoll revents (Int.natCast_nonneg after))⟩

/-- **The loop of the stop** calls the delayed handlers from position `i` on. -/
theorem stopDelayed_posts {fuel i : ℕ} (hst : s.status = .stopping)
    (h : Accounts s [] (s.timedHandlersHeap.data.drop i))
    (hrun : stopDelayed beh fuel i s = some s') :
    Quiet s s' ∧ Accounts s' [] [] ∧ ∃ calls, CallChain beh s calls s' := by
  induction fuel generalizing i s with
  | zero => cases hrun
  | succ fuel ih =>
      rw [stopDelayed] at hrun
      split at hrun
      next hi =>
        obtain ⟨ent, hent, hrun⟩ := Option.bind_eq_some_iff.mp hrun
        obtain ⟨s₁, h₁, hrun⟩ := Option.bind_eq_some_iff.mp hrun
        obtain ⟨s₀, hs₀⟩ : ∃ s₀, s₀ = s.signal ent.status .stopped := ⟨_, rfl⟩
        rw [← hs₀] at h₁
        have hsame : s₀ = { s with errs := s₀.errs } := by rw [hs₀, signal_eq]
        have hst₀ : s₀.status = .stopping := by rw [hsame, hst]
        obtain ⟨s₂, h₂, hidle⟩ := callHandler_stopping hst₀ beh (.delay ent .stopped)
          (isSome_of_callHandler h₁)
        obtain rfl := Option.some.inj (h₁.symm.trans h₂)
        have hchain := (callHandler_posts hbeh h₁).2
        have hquiet : Quiet s s₁ := by
          refine ⟨?_, hidle.timed.trans (by rw [hsame]; rfl), ?_⟩
          · rw [hidle.same, hsame]
            rfl
          · exact (show s.clock ≤ s₀.clock by rw [hsame]).trans hidle.clock
        have hdrop : s.timedHandlersHeap.data.drop i =
            ent :: s.timedHandlersHeap.data.drop (i + 1) := by
          rw [List.drop_eq_getElem_cons hi, (List.getElem?_eq_some_iff.mp hent).2]
        have hstart := h.delay_starts (.of_eq hdrop) (.inr rfl) hs₀
        have hlog : s₁.log = (s₀.note (.invoked (.delay ent .stopped) ent.handler s₀.clock s₀.ints
          s₀.errs)).log := by rw [hidle.same]
        have hafter := hstart.frame hlog hidle.clock
        have hheap : s₁.timedHandlersHeap = s.timedHandlersHeap := by rw [hquiet.same]
        rw [← hheap] at hafter
        obtain ⟨hquiet', hacc, calls, hcalls⟩ := ih (hquiet.status.trans hst) hafter hrun
        refine ⟨hquiet.trans hquiet', hacc, _, (hchain.of_working ?_).trans hcalls⟩
        rw [hsame]
        exact ⟨rfl, le_rfl, rfl⟩
      next hi =>
        obtain rfl := Option.some.inj hrun
        rw [List.drop_eq_nil_of_le (by omega)] at h
        exact ⟨.refl s, h, [], .done (.refl s)⟩

/-- **The stop** calls every delayed handler that is left. -/
theorem PostInv.prepStop (h : PostInv s) (hst : s.status = .stopping)
    (hq : s.syncHandlers.elems = []) (hrun : iosvcPrepStop beh s = some s') :
    PostInv s' ∧ s'.syncHandlers.elems = [] ∧ s'.timedHandlersHeap.data = [] ∧
      ∃ calls, CallChain beh s calls s' := by
  obtain ⟨s₁, h₁, hrun⟩ := Option.bind_eq_some_iff.mp hrun
  have hacc : Accounts s [] (s.timedHandlersHeap.data.drop 0) := by
    have := h.accounts
    rwa [hq] at this
  obtain ⟨hquiet, hacc₁, calls, hcalls⟩ := stopDelayed_posts hbeh hst hacc h₁
  -- there is no tree to traverse
  have hroot : s₁.asyncHandlers.root = none := by rw [hquiet.tree, h.root]
  simp only [hroot, stopAsyncOps, bind, Option.bind_some, Option.some.injEq] at hrun
  have hq₁ : s₁.syncHandlers.elems = [] := by rw [hquiet.same, hq]
  have hworking : Working s₁ s' := by
    rw [← hrun]
    exact ⟨rfl, le_rfl, rfl⟩
  have hq' : s'.syncHandlers.elems = [] := by rw [← hrun, hq₁]
  have hheap' : s'.timedHandlersHeap.data = [] := by
    rw [← hrun]
    rfl
  refine ⟨⟨⟨?_, ?_, ?_, ?_, ?_⟩, ?_⟩, hq', hheap', _, hcalls.trans (.done hworking)⟩
  · rw [← hrun]
    rfl
  · rw [← hrun]
    rfl
  · rw [← hrun]
  · rw [hheap']
    intro i x y _ hx
    simp at hx
  · simp [hheap']
  · rw [hq', hheap']
    exact hacc₁.frame hworking.log hworking.clock

/-- **The loop of `iosvc_run`** ends with nothing left to be called. -/
theorem PostInv.runLoop {fuel : ℕ} {outcomes : List PollOutcome} (h : PostInv s)
    (hpoll : ∀ o ∈ outcomes, o.fails = false) (hrun : runLoop beh fuel outcomes s = some s') :
    PostInv s' ∧ s'.syncHandlers.elems = [] ∧ s'.timedHandlersHeap.data = [] ∧
      ∃ calls, CallChain beh s calls s' := by
  induction fuel generalizing outcomes s with
  | zero => cases hrun
  | succ fuel ih =>
      rw [IoEngine.runLoop] at hrun
      split at hrun
      next hend =>
        obtain rfl := Option.some.inj hrun
        exact ⟨h, hend.2.2, hend.2.1, [], .done (.refl s)⟩
      next =>
        obtain ⟨s₁, h₁, hrun⟩ := Option.bind_eq_some_iff.mp hrun
        obtain ⟨hinv₁, hq₁, calls₁, hcalls₁⟩ := h.runSync hbeh h₁
        -- what follows is a stop, another iteration, or a call of `poll`
        split at hrun
        next hst =>
          obtain ⟨hinv, hq, hheap, calls, hcalls⟩ := hinv₁.prepStop hbeh hst hq₁ hrun
          exact ⟨hinv, hq, hheap, _, hcalls₁.trans hcalls⟩
        next =>
          split at hrun
          next =>
            obtain ⟨hinv, hq, hheap, calls, hcalls⟩ := ih hinv₁ hpoll hrun
            exact ⟨hinv, hq, hheap, _, hcalls₁.trans hcalls⟩
          next hne =>
            cases outcomes with
            | nil => cases hrun
            | cons o outcomes =>
                obtain ⟨s₂, h₂, hrun⟩ := Option.bind_eq_some_iff.mp hrun
                have hheap₁ : s₁.timedHandlersHeap.data ≠ [] := fun hc =>
                  hne ⟨hinv₁.pollfds, hc⟩
                obtain ⟨hinv₂, calls₂, hcalls₂⟩ :=
                  hinv₁.pollAndServe hbeh hheap₁ (hpoll o (by simp)) h₂
                obtain ⟨hinv, hq, hheap, calls, hcalls⟩ :=
                  ih hinv₂ (fun o ho => hpoll o (List.mem_cons_of_mem _ ho)) hrun
                exact ⟨hinv, hq, hheap, _, hcalls₁.trans (hcalls₂.trans hcalls)⟩

omit hbeh in
/-- With nothing left to be called, everything that was accepted was called. -/
theorem PostInv.closed (h : PostInv s) (hq : s.syncHandlers.elems = [])
    (hheap : s.timedHandlersHeap.data = []) :
    s.told Obs.invokedPost = s.told Obs.acceptedPost ∧
      (s.told Obs.invokedDelay).Perm (s.told Obs.acceptedDelay) := by
  have hfinal := h.accounts
  rw [hq, hheap] at hfinal
  exact ⟨(hfinal.posted.trans (List.append_nil _)).symm,
    (hfinal.delayed.trans (.of_eq (List.append_nil _))).symm⟩

omit hbeh in
/-- **What was posted before the run** waits in the queue and in the heap. -/
theorem PostInv.of_started {alloc : Alloc} {clock : ℤ} {ints : Addr → Int32}
    {errs : Addr → IoErrcode} {before : Script} (hbefore : before.posts = true)
    (hs : exec before (iosvcCreate alloc clock ints errs) = some s) :
    s.status = .ready ∧ PostInv { s with status := .running } := by
  have hnew : PostInv (iosvcCreate alloc clock ints errs) := by
    refine ⟨⟨rfl, rfl, rfl, ?_, by simp [iosvcCreate, DynArray.init]⟩, rfl, .refl _, ?_, .nil, ?_,
      ?_⟩
    · intro i x y _ hx
      simp [iosvcCreate, DynArray.init] at hx
    all_goals simp [told, iosvcCreate]
  obtain ⟨l, hl⟩ := exec_posts hbefore hs
  have honly := hnew.of_posted hl
  have hacc : Accounts s s.syncHandlers.elems s.timedHandlersHeap.data := by
    rw [hl.queue]
    exact (hnew.accounts.of_posted hl).perm hl.heap.symm
  refine ⟨?_, ⟨honly.pollfds, honly.timed, honly.root, honly.ordered, honly.near⟩,
    hacc.frame rfl le_rfl⟩
  rw [exec_status hbefore hs, Script.stops_eq_false hbefore (by simp [iosvcCreate])]
  rfl

/-- **The accounts of a whole run.** On a new service let handlers be posted, with and without
a delay, before `iosvc_run` and by the handlers, which may stop the service and do nothing
else. Let `poll` not fail but for interruptions. If `iosvc_run` returns, then the posted handlers
that were called are those that were accepted, in this order; the delayed handlers that were
called are those that were accepted, each found its code in its status variable, the ones called
with `EIO_OK` were called in the order of their deadlines and not before them, and the others
with `EIO_STOPPED`. The queue and the heap are empty, the status is `DONE`, and the result is
`EIO_STOPPED` if a call of `iosvc_stop` succeeded in one of the handlers, and else `EIO_OK`. -/
theorem postRun_accounts {alloc : Alloc} {clock : ℤ} {ints : Addr → Int32}
    {errs : Addr → IoErrcode} {before : Script} (hbefore : before.posts = true)
    (hs : exec before (iosvcCreate alloc clock ints errs) = some s) {fuel : ℕ}
    {outcomes : List PollOutcome} (hpoll : ∀ o ∈ outcomes, o.fails = false) {code : IoErrcode}
    (hrun : iosvcRun beh fuel outcomes s = some (code, s')) :
    s'.told Obs.invokedPost = s'.told Obs.acceptedPost ∧
      (s'.told Obs.invokedDelay).Perm (s'.told Obs.acceptedDelay) ∧
      (∀ o ∈ s'.log, o.DelaySignalled) ∧
      (s'.told Obs.completedDelay).Pairwise (fun d e => d.deadline ≤ e.deadline) ∧
      s'.syncHandlers.elems = [] ∧ s'.timedHandlersHeap.data = [] ∧ s'.status = .done ∧
      ∃ calls s₁, CallChain beh { s with status := .running } calls s₁ ∧
        s' = { s₁ with status := .done } ∧
        code = if calls.any (HandlerCall.stops beh) then .stopped else .ok := by
  obtain ⟨hst, hstarted⟩ := PostInv.of_started hbefore hs
  simp only [iosvcRun, runRefused, hst] at hrun
  obtain ⟨s₁, h₁, hrun⟩ := Option.bind_eq_some_iff.mp hrun
  obtain ⟨rfl, rfl⟩ := Prod.mk.inj (Option.some.inj hrun)
  obtain ⟨hinv, hq, hheap, calls, hcalls⟩ := hstarted.runLoop hbeh hpoll h₁
  obtain ⟨hposts, hdelays⟩ := hinv.closed hq hheap
  refine ⟨hposts, hdelays, hinv.accounts.signalled, hinv.accounts.sorted, hq, hheap, rfl, calls, s₁,
    hcalls, rfl, ?_⟩
  rw [hcalls.status hbeh]
  split <;> rfl

end

/-- Handler 1 posts handler 3 and, with a delay of 2, handler 4; handler 2 stops the service. -/
def postingBeh : Behaviour RbMem := fun hnd _ =>
  if hnd.callback = some 1 then
    .call (.post ⟨some 3, 0⟩) .ret (.call (.postDelay ⟨some 4, 0⟩ none 2) .ret .ret)
  else if hnd.callback = some 2 then .call .stop .ret .ret
  else .ret

/-- Handler 1 is posted, handler 2 with a delay of 5, and handler 4 with a delay of 9. -/
def postingScript : Script :=
  .call (.post ⟨some 1, 0⟩) .ret (.call (.postDelay ⟨some 2, 0⟩ (some 0) 5) .ret
    (.call (.postDelay ⟨some 4, 0⟩ (some 1) 9) .ret .ret))

/-- Two posted handlers and two delayed ones are called before the service is stopped, and one
delayed handler is stopped. -/
theorem postRun_accounts_stopped :
    ∃ s s' : Svc RbMem, exec postingScript (newService 0 (fun _ => 0) fun _ => .ok) = some s ∧
      iosvcRun postingBeh 9 [.expired 0, .interrupted 1 [], .expired 1] s = some (.stopped, s') ∧
      s'.told Obs.invokedPost = s'.told Obs.acceptedPost ∧
      (s'.told Obs.invokedDelay).Perm (s'.told Obs.acceptedDelay) ∧
      (s'.told Obs.invokedDelay).length = 3 ∧ (s'.told Obs.completedDelay).length = 2 ∧
      s'.timedHandlersHeap.data = [] := by
  have hobs : (exec postingScript (newService 0 (fun _ => 0) fun _ => .ok)).any (fun s =>
      (iosvcRun postingBeh 9 [.expired 0, .interrupted 1 [], .expired 1] s).any fun r =>
        decide (r.1 = .stopped ∧ (r.2.told Obs.invokedDelay).length = 3 ∧
          (r.2.told Obs.completedDelay).length = 2)) = true := by decide
  obtain ⟨s, hs, hobs⟩ := (Option.any_eq_true _ _).mp hobs
  obtain ⟨⟨code, s'⟩, hrun, hobs⟩ := (Option.any_eq_true _ _).mp hobs
  obtain ⟨rfl, hlen, hlen'⟩ := of_decide_eq_true hobs
  have hbeh : ∀ hnd s, (postingBeh hnd s).posts = true := by
    intro hnd s
    unfold postingBeh
    repeat' split
    all_goals rfl
  obtain ⟨hposts, hdelays, -, -, -, hheap, -⟩ :=
    postRun_accounts hbeh (show postingScript.posts = true from rfl) hs (by decide) hrun
  exact ⟨s, s', hs, hrun, hposts, hdelays, hlen, hlen', hheap⟩

end IoEngine
