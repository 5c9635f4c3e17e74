import Mathlib.Logic.Relation
import IoEngine.Scheduling

/-!
# Histories of Events

The `pollfd` array over any history of scheduling calls and completions, with the tree read
as a finite map from fd to node (`FdMap`). A completion is `iosvc_dequeue` of a pending
event, followed by `ioevt_cleanup_evt` when the poll bits of the fd have become 0.

## Main results

* `EventInv.step`: **one step** keeps the service consistent.
* `fdEvents_consistent`: in **every state reached** from a new service the nodes and the
  `pollfd`s correspond to each other, and the poll bits are those of the pending events.
-/

open BinHeap

namespace IoEngine

open FdTree Svc LawfulFdTree

section

variable {τ π : Type} [FdTree τ π]

/-- Complete an event of `fd`: `iosvc_dequeue`, and `ioevt_cleanup_evt` if the entry's
`events` became 0. -/
def completeEvent (s : Svc τ) (fd : ℤ) (wt : WaitType) (now : ℤ) (code : IoErrcode) :
    Option (Svc τ) := do
  let place ← rbProbe s.asyncHandlers fd
  let a ← ← load s.asyncHandlers place
  let (_, s) ← iosvcDequeue s a wt now code
  finishCancel s place

/-- **The array and the nodes correspond to each other.** -/
structure PollConsistent (s : Svc τ) : Prop where
  /-- the node of an fd has its `pollfd` at its position, with the same fd and the bits of
  exactly the events pending on it -/
  entry : ∀ fd a, lookup s.asyncHandlers fd = some a → ∃ n e, s.nodes a = some n ∧
    s.pollfds.data[n.pollfdIdx]? = some e ∧ e.fd = fd ∧
    e.events = requested fun wt => (s.view fd wt).isSome
  /-- every `pollfd` is that of the node of its fd -/
  node : ∀ (i : ℕ) e, s.pollfds.data[i]? = some e →
    ∃ a n, lookup s.asyncHandlers e.fd = some a ∧ s.nodes a = some n ∧ n.pollfdIdx = i
  /-- `POLLERR` is requested exactly for a read or a write -/
  pollerr : ∀ e ∈ s.pollfds.data, e.events &&& pollerr ≠ 0 ↔
    (s.view e.fd .read).isSome = true ∨ (s.view e.fd .write).isSome = true
  /-- every node has a pending event -/
  pending : ∀ fd a, lookup s.asyncHandlers fd = some a → ∃ wt, (s.view fd wt).isSome = true
  /-- the array is empty exactly when nothing is pending -/
  empty_iff : s.pollfds.data = [] ↔ ∀ fd wt, s.view fd wt = none

/-- `POLLERR` is requested exactly for a read or a write. -/
theorem requested_pollerr (p : WaitType → Bool) :
    requested p &&& pollerr ≠ 0 ↔ p .read = true ∨ p .write = true := by
  unfold requested
  generalize p .read = r
  generalize p .write = w
  generalize p .exception = x
  revert r w x
  decide

/-- The bits requested for a node are those of the pending events of its fd. -/
theorem mask_eq_requested {s : Svc τ} {fd : ℤ} {a : Addr} {n : EventNode}
    (ha : lookup s.asyncHandlers fd = some a) (hn : s.nodes a = some n) :
    n.mask = requested fun wt => (s.view fd wt).isSome := by
  rw [EventNode.mask]
  congr 1
  funext wt
  rw [view_isSome ha hn]

variable [LawfulFdTree τ π] {s : Svc τ}

/-- A consistent state is consistent in the sense of the array. -/
theorem Inv.pollConsistent (h : Inv [] s) : PollConsistent s := by
  have hentry : ∀ fd a, lookup s.asyncHandlers fd = some a → ∃ n e, s.nodes a = some n ∧
      s.pollfds.data[n.pollfdIdx]? = some e ∧ e.fd = fd ∧
      e.events = requested fun wt => (s.view fd wt).isSome := by
    intro fd a ha
    obtain ⟨n, hn⟩ := h.node_of_lookup ha
    obtain ⟨e, he, hfd, hev, -⟩ := h.entry fd a n ha hn
    exact ⟨n, e, hn, he, hfd, hev.trans (mask_eq_requested ha hn)⟩
  refine ⟨hentry, h.back, fun e hm => ?_, fun fd a ha => ?_, ?_⟩
  · obtain ⟨i, hi⟩ := List.mem_iff_getElem?.mp hm
    obtain ⟨a, n, ha, hn, hidx⟩ := h.back i e hi
    obtain ⟨n', e', hn', he', -, hev⟩ := hentry e.fd a ha
    obtain rfl : n = n' := Option.some.inj (hn.symm.trans hn')
    rw [hidx, hi] at he'
    obtain rfl := Option.some.inj he'
    rw [hev, requested_pollerr]
  · exact (h.present_iff (by simp)).mp (by rw [ha]; rfl)
  · rw [List.eq_nil_iff_forall_not_mem]
    constructor
    · intro hno fd wt
      refine Option.not_isSome_iff_eq_none.mp fun hs => ?_
      obtain ⟨e, he, -⟩ :=
        h.mem_pollfds_iff.mpr ((h.present_iff (show fd ∉ [] by simp)).mpr ⟨wt, hs⟩)
      exact hno e he
    · intro hno e he
      obtain ⟨wt, hwt⟩ :=
        (h.present_iff (by simp)).mp (h.mem_pollfds_iff.mp ⟨e, he, rfl⟩)
      rw [hno] at hwt
      cases hwt

/-- A heap entry is the timer of a pending event. -/
theorem Inv.timer_of_mem {V : List ℤ} (h : Inv V s) {e : AsyncHeapEntry} (he : e ∈ s.timed) :
    ∃ fd r, s.view fd e.eventType = some r ∧ r.timer = some (e.deadline, e.remaining) := by
  obtain ⟨k, hk⟩ := List.mem_iff_getElem?.mp he
  obtain ⟨d, hd, -⟩ := h.linked k e hk
  obtain ⟨n, hn, -⟩ := Option.bind_eq_some_iff.mp hd
  obtain ⟨fd, hfd⟩ := (h.dom e.ioOpData).mp (by simp [hn])
  refine ⟨fd, d.pendingWith (some e), ?_, rfl⟩
  rw [view_of_lookup hfd, hd, h.linked.entryOf_eq.mpr ⟨he, rfl, rfl⟩]
  rfl

/-- No pending event has a negative deadline. -/
def DeadlinesOk (s : Svc τ) : Prop :=
  ∀ fd wt r D p, s.view fd wt = some r → r.timer = some (D, p) → 0 ≤ D

omit [LawfulFdTree τ π] in
/-- It is enough to look at the heap. -/
theorem deadlinesOk_of_timed (h : ∀ e ∈ s.timed, 0 ≤ e.deadline) : DeadlinesOk s := by
  intro fd wt r D p hr ht
  obtain ⟨a, -, hr⟩ := Option.bind_eq_some_iff.mp hr
  obtain ⟨d, -, rfl⟩ := Option.map_eq_some_iff.mp hr
  obtain ⟨e, he, hD⟩ := Option.map_eq_some_iff.mp ht
  obtain ⟨rfl, -⟩ := Prod.mk.inj hD
  exact h e (List.mem_of_find?_eq_some he)

/-- In a consistent state with deadlines that are not negative a dequeue goes well. -/
theorem Inv.dequeueOk {V : List ℤ} (h : Inv V s) (hD : DeadlinesOk s) (a : Addr) (wt : WaitType) :
    dequeueOk s a wt = true := by
  unfold IoEngine.dequeueOk
  split
  · rfl
  · refine decide_eq_true fun _ => .inr fun e he => ?_
    obtain ⟨fd, r, hr, ht⟩ := h.timer_of_mem he
    exact hD fd _ r _ _ hr ht

/-- **Completing a pending event** removes that event and no other. -/
theorem Inv.completeEvent {V : List ℤ} (h : Inv V s) {fd : ℤ} {wt : WaitType} (now : ℤ)
    (code : IoErrcode) (hD : DeadlinesOk s) (hx : ∀ t : τ, extractOk t fd = true)
    (hp : (s.view fd wt).isSome = true) :
    ∃ s', completeEvent s fd wt now code = some s' ∧ Inv V s' ∧ s.clock ≤ s'.clock ∧
      ∀ fd' wt', s'.view fd' wt' = if fd' = fd ∧ wt' = wt then none else s.view fd' wt' := by
  cases ha : lookup s.asyncHandlers fd with
  | none => simp [view_none ha] at hp
  | some a =>
      cases hd : pendingAt s.nodes a wt with
      | none => simp [view_of_lookup ha, hd] at hp
      | some d =>
          obtain ⟨place, hpl, hl⟩ := h.probe fd
          rw [ha] at hl
          obtain ⟨s₁, hrun, hinv, hdeq⟩ := h.dequeue now code ha hd
            ((dequeueOk_iff hd).mp (h.dequeueOk hD a wt))
          have htree : s₁.asyncHandlers = s.asyncHandlers := by rw [hdeq.same]
          obtain ⟨n, hn⟩ := hinv.node_of_lookup (htree ▸ ha)
          -- the slot still holds the node of the fd
          have hfin : finishOk s₁ place fd = true := by
            simp only [finishOk, nodeOk, htree, hl, hn, ha]
            split
            · simp [hx]
            next hz => simpa [vacant, htree, ha, hn] using hz
          obtain ⟨s', hrun', hinv', hf⟩ := hinv.finishCancel (probe_wf hpl) hfin
          refine ⟨s', ?_, hinv', ?_, fun fd' wt' => by rw [hf.view, hdeq.view]⟩
          · simp only [IoEngine.completeEvent, hpl, hl, bind, Option.bind_some, hrun, hrun']
          · exact le_trans (by rw [hdeq.same]) hf.extension.clock

/-- A successful enqueue leaves no freed node behind. -/
theorem Inv.not_dangles {V : List ℤ} (h : Inv V s) (heap : DynArray AsyncHeapEntry) (al : Alloc)
    {event : IoEvent} {hnd : IoHandler} {status : Ptr} {p : Ptr} {s' : Svc τ}
    (hrun : iosvcEnqueue (s.withSlot heap al) event hnd status = some (.ok, p, s')) :
    dangles s al event hnd = false := by
  rw [Bool.eq_false_iff]
  intro hd
  obtain ⟨place, a, s'', -, -, -, he⟩ := h.enqueue_dangling heap status hd
  rw [he, Option.map_eq_some_iff] at hrun
  obtain ⟨t, -, hc⟩ := hrun
  cases hc

/-- A successful call of `iosvc_sched`, where insertions need no condition. -/
theorem Inv.sched_ok {V : List ℤ} (h : Inv V s) {event : IoEvent} {hnd : IoHandler} {status : Ptr}
    {s' : Svc τ} (hins : ∀ t : τ, insertOk t event.fd = true)
    (hrun : iosvcSched s event hnd status = some (.ok, s')) :
    Inv V s' ∧ ∃ wt, Scheduled s s' event.fd wt hnd status none := by
  obtain ⟨⟨code, p, s₁⟩, hr, hrest⟩ := Option.bind_eq_some_iff.mp hrun
  have hcode : code = .ok := by
    cases code with
    | ok => rfl
    | _ => cases Prod.mk.inj (Option.some.inj hrest) with | intro hc _ => cases hc
  subst hcode
  have hd := h.not_dangles s.timedEventsHeap s.alloc hr
  have hok : enqueueOk s s.alloc event hnd = true := by simp [enqueueOk, hd, hins]
  obtain ⟨code, s'', hrun', hinv, ⟨hc, -⟩ | ⟨-, wt, -, hs⟩⟩ := h.sched status hok
  · rw [hrun] at hrun'
    exact absurd (Prod.mk.inj (Option.some.inj hrun')).1.symm hc
  · rw [hrun] at hrun'
    obtain ⟨-, rfl⟩ := Prod.mk.inj (Option.some.inj hrun')
    exact ⟨hinv, wt, hs⟩

/-- A successful call of `iosvc_sched_timeout`, where insertions need no condition. -/
theorem Inv.schedTimeout_ok {V : List ℤ} (h : Inv V s) {event : IoEvent} {hnd : IoHandler}
    {status : Ptr} {ms : Addr} {s' : Svc τ} (hins : ∀ t : τ, insertOk t event.fd = true)
    (hrun : iosvcSchedTimeout s event hnd status ms = some (.ok, s')) :
    Inv V s' ∧ ∃ wt, Scheduled s s' event.fd wt hnd status (some (ms, (s.ints ms).toInt)) := by
  have hok : schedTimeoutOk s event hnd = true := by
    unfold schedTimeoutOk
    split
    · rfl
    next heap al hgrow =>
      simp only [iosvcSchedTimeout, hgrow] at hrun
      obtain ⟨⟨code, p, s₁⟩, hr, hrest⟩ := Option.bind_eq_some_iff.mp hrun
      have hcode : code = .ok := by
        cases code with
        | ok => rfl
        | _ => cases Prod.mk.inj (Option.some.inj hrest) with | intro hc _ => cases hc
      subst hcode
      simp [enqueueOk, h.not_dangles heap al hr, hins]
  obtain ⟨code, s'', hrun', hinv, ⟨hc, -⟩ | ⟨-, wt, -, hs⟩⟩ := h.schedTimeout status ms hok
  · rw [hrun] at hrun'
    exact absurd (Prod.mk.inj (Option.some.inj hrun')).1.symm hc
  · rw [hrun] at hrun'
    obtain ⟨-, rfl⟩ := Prod.mk.inj (Option.some.inj hrun')
    exact ⟨hinv, wt, hs⟩

end

/-! ### Histories over a finite map -/

/-- One step of a history: a successful scheduling call, with a timeout that is not negative
if it has one, or the completion of a pending event. -/
inductive EventStep (s : Svc FdMap) : Svc FdMap → Prop
  | sched {s' : Svc FdMap} (c : SchedCall)
      (htimeout : ∀ ms, c.milliseconds = some ms → 0 ≤ (c.ints ms).toInt)
      (hrun : c.run s = some (.ok, s')) : EventStep s s'
  | complete {s' : Svc FdMap} (fd : ℤ) (wt : WaitType) (now : ℤ) (code : IoErrcode)
      (hpending : (s.view fd wt).isSome = true)
      (hrun : completeEvent s fd wt now code = some s') : EventStep s s'

/-- What holds between the steps. -/
structure EventInv (s : Svc FdMap) : Prop where
  inv : Inv [] s
  deadlines : DeadlinesOk s
  clock : 0 ≤ s.clock

/-- **One step** keeps the service consistent. -/
theorem EventInv.step {s s' : Svc FdMap} (h : EventInv s) (hstep : EventStep s s') :
    EventInv s' := by
  cases hstep with
  | sched c htimeout hrun =>
      have hinv : Inv [] (c.enter s) := h.inv.frame rfl rfl rfl rfl le_rfl
      have hclock : 0 ≤ (c.enter s).clock := by
        have := h.clock
        simp only [SchedCall.enter]
        omega
      -- the new deadline, if there is one, is not negative
      have hdone : ∀ {wt timer}, Inv [] s' →
          Scheduled (c.enter s) s' c.event.fd wt c.hnd c.status timer →
          (∀ p T, timer = some (p, T) → 0 ≤ T) → EventInv s' := by
        intro wt timer hinv' hs hT
        refine ⟨hinv', fun fd wt' r D p hr hD => ?_, by rw [hs.same]; exact hclock⟩
        rw [hs.view] at hr
        split at hr
        next =>
          obtain rfl := Option.some.inj hr
          obtain ⟨⟨q, T⟩, ht, he⟩ := Option.map_eq_some_iff.mp hD
          obtain ⟨rfl, -⟩ := Prod.mk.inj he
          exact add_nonneg hclock (hT q T ht)
        next => exact h.deadlines fd wt' r D p hr hD
      unfold SchedCall.run at hrun
      split at hrun
      next =>
        obtain ⟨hinv', wt, hs⟩ := hinv.sched_ok (fun _ => rfl) hrun
        exact hdone hinv' hs (by simp)
      next ms hms =>
        obtain ⟨hinv', wt, hs⟩ := hinv.schedTimeout_ok (fun _ => rfl) hrun
        refine hdone hinv' hs fun p T hT => ?_
        obtain ⟨rfl, rfl⟩ := Prod.mk.inj (Option.some.inj hT)
        exact htimeout ms hms
  | complete fd wt now code hpending hrun =>
      obtain ⟨s'', hrun', hinv', hclock, hview⟩ :=
        h.inv.completeEvent now code h.deadlines (fun _ => rfl) hpending
      obtain rfl : s' = s'' := Option.some.inj (hrun.symm.trans hrun')
      refine ⟨hinv', fun fd' wt' r D p hr hD => ?_, h.clock.trans hclock⟩
      rw [hview] at hr
      split at hr
      · cases hr
      · exact h.deadlines fd' wt' r D p hr hD

/-- What holds between the steps holds in every state reached. -/
theorem eventInv_of_steps {alloc : Alloc} {clock : ℕ} {ints : Addr → Int32}
    {errs : Addr → IoErrcode} {s : Svc FdMap}
    (h : Relation.ReflTransGen EventStep (iosvcCreate alloc clock ints errs) s) : EventInv s := by
  induction h with
  | refl =>
      refine ⟨inv_create .., fun fd wt r D p hr => ?_, Int.natCast_nonneg clock⟩
      rw [view_create] at hr
      cases hr
  | tail _ hstep ih => exact ih.step hstep

/-- **The array under any history of events.** In every state reached from a new service by
successful scheduling calls and completions of pending events the array and the nodes
correspond to each other, and every pending event can be completed. -/
theorem fdEvents_consistent (alloc : Alloc) (clock : ℕ) (ints : Addr → Int32)
    (errs : Addr → IoErrcode) (s : Svc FdMap)
    (h : Relation.ReflTransGen EventStep (iosvcCreate alloc clock ints errs) s) :
    PollConsistent s ∧ ∀ fd wt now code, (s.view fd wt).isSome = true →
      ∃ s', completeEvent s fd wt now code = some s' := by
  have hinv := eventInv_of_steps h
  refine ⟨hinv.inv.pollConsistent, fun fd wt now code hp => ?_⟩
  obtain ⟨s', hrun, -⟩ := hinv.inv.completeEvent now code hinv.deadlines (fun _ => rfl) hp
  exact ⟨s', hrun⟩

/-- A sequence of calls whose timeouts are not negative is a history. -/
theorem eventSteps_of_schedAll {s s' : Svc FdMap} {cs : List SchedCall}
    (hms : ∀ c ∈ cs, ∀ ms, c.milliseconds = some ms → 0 ≤ (c.ints ms).toInt)
    (h : schedAll s cs = some s') :
    Relation.ReflTransGen EventStep s s' := by
  induction cs generalizing s with
  | nil =>
      obtain rfl := Option.some.inj h
      exact .refl
  | cons c cs ih =>
      unfold schedAll at h
      split at h
      next s₁ hrun =>
        refine .head (.sched c (hms c List.mem_cons_self) hrun) (ih (fun c' hc' => hms c' ?_) h)
        exact List.mem_cons_of_mem _ hc'
      next => cases h

/-- A read of fd 5 is scheduled, and a read of fd 7; the first one is completed. -/
theorem fdEvents_consistent_swap :
    ∃ s : Svc FdMap, Relation.ReflTransGen EventStep
      (iosvcCreate ⟨fun _ => true, 0⟩ (0 : ℕ) (fun _ => 0) fun _ => .ok) s ∧
      s.pollfds.data.map PollFd.fd = [7] ∧ PollConsistent s := by
  have hobs : ((schedAll (iosvcCreate ⟨fun _ => true, 0⟩ (0 : ℕ) (fun _ => 0) fun _ => .ok :
      Svc FdMap) [readCall 5, readCall 7]).bind fun s => if (s.view 5 .read).isSome then
        completeEvent s 5 .read 0 .ok else none).map
          (fun s => s.pollfds.data.map PollFd.fd) = some [7] := by decide
  obtain ⟨s, hs, hfds⟩ := Option.map_eq_some_iff.mp hobs
  obtain ⟨s₂, hs₂, hs⟩ := Option.bind_eq_some_iff.mp hs
  split at hs
  next hp =>
    have hreach := (eventSteps_of_schedAll (by simp [readCall]) hs₂).tail
      (.complete 5 .read 0 .ok hp hs)
    exact ⟨s, hreach, hfds, (fdEvents_consistent _ 0 _ _ s hreach).1⟩
  next => cases hs

end IoEngine
