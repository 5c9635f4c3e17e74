import IoEngine.Completion
import IoEngine.Delays
import IoEngine.QuietPass

/-!
# An Iteration of the Loop

An iteration of `iosvc_run` deals with the first timer, if it is due, and then with what
`poll` has reported. It decides about the timer by a test of its own: `is_top_event_ready`
counts `POLLERR` for a read and for a write, which the dispatcher does not.

## Main results

* `ready_completes_iff`: a pass completes an event of an fd of which something is reported
  **if and only if** this is not `POLLERR` alone, whatever is reported of the other fds.
* `top_event_completed_iff`: when the deadline of the first timed event has been reached, an
  iteration completes this event once and with the right code **if and only if** the two
  tests of its readiness agree and the time that `poll` has taken fits into an `int`.
-/

open BinHeap

namespace IoEngine

open FdTree Svc LawfulFdTree

/-! ### Timing out the first event -/

section

variable {τ π : Type} [FdTree τ π]

/-- If the first timed event is the only one of its fd, the extraction of the node repairs
the tree. -/
def timeoutRemovalOk (s : Svc τ) : Bool :=
  (s.timed[0]?).all fun top => (fdOf s.asyncHandlers top.ioOpData).all fun fd =>
    ([.read, .write, .exception] : List WaitType).any
      (fun wt => wt ≠ top.eventType ∧ (s.view fd wt).isSome = true) || extractOk s.asyncHandlers fd

variable [LawfulFdTree τ π]

/-- The first timed event has been timed out, with a quiet handler. -/
structure TimedOut (s s' : Svc τ) (fd : ℤ) (wt : WaitType) (r : Pending) : Prop where
  inv : Inv [] s'
  deadlines : DeadlinesOk s → DeadlinesOk s'
  /-- the event is gone, and no other -/
  view : ∀ fd' w, s'.view fd' w = if fd' = fd ∧ w = wt then none else s.view fd' w
  polls : Descends s.pollfds.data s'.pollfds.data
  log : ∃ l, s'.log = l ++ s.log ∧ ∀ fd' w, completions fd' w l =
    if fd' = fd ∧ w = wt then [(.timeout, r.handler)] else []

/-- The node of an fd is good, if its extraction repairs the tree when no event is left. -/
theorem Inv.nodeOk_of_removal {V : List ℤ} {s : Svc τ} (h : Inv V s) {fd : ℤ} {a : Addr}
    (ha : lookup s.asyncHandlers fd = some a)
    (hrem : (∀ wt, s.view fd wt = none) → extractOk s.asyncHandlers fd = true) :
    nodeOk s a fd = true := by
  obtain ⟨n, hn⟩ := h.node_of_lookup ha
  simp only [nodeOk, hn]
  split
  next hz =>
    have hx := hrem fun wt => by
      rw [← Option.not_isSome_iff_eq_none, view_isSome ha hn, EventNode.mask_eq_zero.mp hz wt]
      simp
    simp [ha, hx]
  next hz => simpa [vacant, ha, hn] using hz

/-- **Timing out the first event** with a quiet handler. -/
theorem Inv.timeout_quiet {s : Svc τ} (h : Inv [] s) {beh : Behaviour τ}
    (hbeh : Quieting beh) (now : ℤ) {top : AsyncHeapEntry} (htop : s.timed[0]? = some top)
    (hrem : timeoutRemovalOk s = true) :
    ∃ fd r s', lookup s.asyncHandlers fd = some top.ioOpData ∧
      s.view fd top.eventType = some r ∧ timeoutEvent beh s now = some s' ∧
      TimedOut s s' fd top.eventType r := by
  obtain ⟨fd, d, s₀, s₁, hfd, hd, hdeq, -, rfl, hinv₁, -, hrun⟩ := h.timeout_starts now htop
  have hent : entryOf s.timed top.ioOpData top.eventType = some top :=
    h.linked.entryOf_eq.mpr ⟨List.mem_of_getElem? htop, rfl, rfl⟩
  have hr : s.view fd top.eventType =
      some ⟨d.handler, d.status, some (top.deadline, top.remaining)⟩ := by
    rw [view_of_lookup hfd, hd, hent]
    rfl
  have htree₀ : s₀.asyncHandlers = s.asyncHandlers := by rw [hdeq.same]
  have hlog₀ : s₀.log = s.log := by rw [hdeq.same]
  -- the handler touches time and the user's variables only
  generalize hs₁ : (s₀.setInt top.remaining 0).note (.invoked (.event fd top.eventType .timeout now)
    d.handler s₀.clock (s₀.setInt top.remaining 0).ints s₀.errs) = s₁ at hinv₁ hrun
  obtain ⟨dt, ints, errs, hexec⟩ := exec_quiet (hbeh d.handler s₁) s₁
  have hinv₂ : Inv [fd] { s₁ with clock := s₁.clock + dt, ints := ints, errs := errs } :=
    hinv₁.frame rfl rfl rfl rfl le_rfl
  generalize hs₂ : { s₁ with clock := s₁.clock + dt, ints := ints, errs := errs } = s₂
    at hinv₂ hexec
  have htree₂ : s₂.asyncHandlers = s.asyncHandlers := by
    rw [← hs₂, ← hs₁]
    exact htree₀
  have hview₂ : ∀ fd' w, s₂.view fd' w =
      if fd' = fd ∧ w = top.eventType then none else s.view fd' w := by
    rw [← hs₂, ← hs₁]
    exact hdeq.view
  have hok : nodeOk s₂ top.ioOpData fd = true := by
    refine hinv₂.nodeOk_of_removal (by rw [htree₂, hfd]) fun hnone => ?_
    simp only [timeoutRemovalOk, htop, (fdOf_iff h.tree).mpr hfd, Option.all_some,
      Bool.or_eq_true, List.any_eq_true, decide_eq_true_eq] at hrem
    rcases hrem with ⟨w, -, hne, hw⟩ | hx
    · have := hnone w
      rw [hview₂, if_neg fun hc => hne hc.2] at this
      simp [this] at hw
    · rw [htree₂]
      exact hx
  obtain ⟨s', hfin, hinv', hf⟩ := hinv₂.finishTimeout hok
  have hview' : ∀ fd' w, s'.view fd' w =
      if fd' = fd ∧ w = top.eventType then none else s.view fd' w := by
    rw [hf.view]
    exact hview₂
  refine ⟨fd, _, s', hfd, hr, by rw [hrun, hexec, Option.bind_some, hfin], hinv',
    fun hD fd' w r D p hr ht => ?_, hview', ?_, [.invoked (.event fd top.eventType .timeout now)
      d.handler s₀.clock (s₀.setInt top.remaining 0).ints s₀.errs], ?_, fun fd' w => ?_⟩
  · rw [hview'] at hr
    split at hr
    · cases hr
    · exact hD fd' w r D p hr ht
  · refine Descends.trans (.of_polls fun i => ?_) hf.extension.polls
    rw [← hs₂, ← hs₁]
    exact hdeq.polls i
  · have hlog : s'.log = s₂.log := congrArg (fun t => t.2.2.2) (finishTimeout_timers hfin)
    rw [hlog, ← hs₂, ← hs₁]
    exact congrArg (List.cons _) hlog₀
  · by_cases hc : fd' = fd ∧ w = top.eventType
    · obtain ⟨rfl, rfl⟩ := hc
      simp [completions, Obs.completion]
    · simp only [completions, List.filterMap_cons, Obs.completion, if_neg hc,
        if_neg (fun h => hc ⟨h.1.symm, h.2.symm⟩ : ¬(fd = fd' ∧ top.eventType = w))]
      rfl

/-! ### The two tests of readiness -/

/-- The entry that `is_top_event_ready` looks at. -/
theorem Inv.topReady {V : List ℤ} {s : Svc τ} (h : Inv V s) {top : AsyncHeapEntry}
    (htop : s.timed[0]? = some top) : ∃ fd e, lookup s.asyncHandlers fd = some top.ioOpData ∧
      e ∈ s.pollfds.data ∧ e.fd = fd ∧
      isTopEventReady s = some (decide (e.revents &&& readyMask top.eventType ≠ 0)) := by
  obtain ⟨d, hd, -⟩ := h.linked 0 top htop
  obtain ⟨n, hn, -⟩ := Option.bind_eq_some_iff.mp hd
  obtain ⟨fd, e, hfd, he, hefd, -, -⟩ := h.entry_of_node hn
  refine ⟨fd, e, hfd, List.mem_of_getElem? he, hefd, ?_⟩
  simp only [isTopEventReady, htop, hn, he, bind, Option.bind_some]

/-- `is_top_event_ready` counts all the bits that the dispatcher counts. -/
theorem ready_of_reported {e : PollFd} {wt : WaitType} (hwt : wt ∈ e.reported) :
    e.revents &&& readyMask wt ≠ 0 := by
  intro hc
  refine (mem_reported.mp hwt).2 ?_
  have hsub : dequeueMask wt = readyMask wt &&& dequeueMask wt := by cases wt <;> decide
  rw [hsub, ← BitVec.and_assoc, hc]
  exact BitVec.zero_and

/-- An fd is not reported as invalid unasked. -/
theorem Inv.valid_of_requested {V : List ℤ} {s : Svc τ} (h : Inv V s) {e : PollFd}
    (he : e ∈ s.pollfds.data) (hpoll : e.revents &&& ~~~ (e.events ||| pollerr) = 0) :
    e.revents &&& pollnval = 0 := by
  refine and_eq_zero_of_subset hpoll ?_
  rw [h.events_eq he]
  generalize (fun wt => (s.view e.fd wt).isSome) = p
  unfold requested
  generalize p .read = r
  generalize p .write = w
  generalize p .exception = x
  revert r w x
  decide

/-- The bits that can be requested are those of the events and `POLLERR`. -/
theorem requested_subset (p : WaitType → Bool) : (requested p ||| pollerr) &&&
    ~~~ (pollerr ||| (dequeueMask .read ||| dequeueMask .write ||| dequeueMask .exception)) = 0 := by
  unfold requested
  generalize p .read = r
  generalize p .write = w
  generalize p .exception = x
  revert r w x
  decide

/-- A report of at most one bit. -/
theorem zero_or_pollerr {r : PollMask} (h : r &&& ~~~ pollerr = 0) : r = 0 ∨ r = pollerr := by
  have hr : r = r &&& pollerr := by
    ext i hi
    have hb := congrArg (fun x : PollMask => x[i]) h
    simp only [BitVec.getElem_and, BitVec.getElem_not, BitVec.ofNat_eq_ofNat,
      BitVec.getElem_zero] at hb ⊢
    cases hri : r[i] <;> simp_all
  rw [show pollerr = BitVec.twoPow 16 3 by decide, BitVec.and_twoPow] at hr
  rw [hr]
  split
  · exact .inr (by decide)
  · exact .inl rfl

/-- **A report of requested bits** has a bit of a pending event's own, or it is `POLLERR`
alone. -/
theorem Inv.exists_reported {V : List ℤ} {s : Svc τ} (h : Inv V s) {e : PollFd}
    (he : e ∈ s.pollfds.data) (hpoll : e.revents &&& ~~~ (e.events ||| pollerr) = 0)
    (hne : e.revents ≠ 0) (herr : e.revents ≠ pollerr) :
    ∃ wt ∈ e.reported, (s.view e.fd wt).isSome = true := by
  have hvalid := h.valid_of_requested he hpoll
  obtain ⟨wt, hwt⟩ : ∃ wt, wt ∈ e.reported := by
    by_contra hno
    have hzero : ∀ wt, e.revents &&& dequeueMask wt = 0 := fun wt => by
      by_contra hc
      exact hno ⟨wt, mem_reported.mpr ⟨hvalid, hc⟩⟩
    have hall : e.revents &&& ~~~ (pollerr |||
        (dequeueMask .read ||| dequeueMask .write ||| dequeueMask .exception)) = 0 := by
      refine and_eq_zero_of_subset hpoll ?_
      rw [h.events_eq he]
      exact requested_subset _
    have hown : e.revents &&& (dequeueMask .read ||| dequeueMask .write |||
        dequeueMask .exception) = 0 := by
      rw [BitVec.and_or_distrib_left, BitVec.and_or_distrib_left, hzero, hzero, hzero]
      decide
    have hrest : e.revents &&& ~~~ (pollerr ||| 0) = 0 := by
      refine reported_without hall ?_
      rw [show (dequeueMask .read ||| dequeueMask .write ||| dequeueMask .exception) &&& ~~~ 0 =
        dequeueMask .read ||| dequeueMask .write ||| dequeueMask .exception by decide, hown]
    rw [show pollerr ||| (0 : PollMask) = pollerr by decide] at hrest
    exact (zero_or_pollerr hrest).elim hne herr
  exact ⟨wt, hwt, h.pending_of_reported he hpoll (by cases wt <;> decide) hwt⟩

/-! ### The pass after a timeout -/

/-- The entries after the timeout report what they did before. -/
theorem TimedOut.entry {s s' : Svc τ} {fd : ℤ} {wt : WaitType} {r : Pending}
    (ht : TimedOut s s' fd wt r) {e' : PollFd} (he' : e' ∈ s'.pollfds.data)
    (hr : e'.revents ≠ 0) : ∃ e ∈ s.pollfds.data, e.fd = e'.fd ∧ e.revents = e'.revents := by
  have hdrop := ht.polls.drop (i := 0) (by simpa using he') hr
  simpa using hdrop

/-- What is reported depends on the report alone. -/
theorem reported_congr {e e' : PollFd} (h : e.revents = e'.revents) : e.reported = e'.reported := by
  simp only [PollFd.reported, h]

/-- **The pass after a timeout**, when the event timed out is not reported: all that is
reported is still pending. -/
theorem TimedOut.pass {s s' : Svc τ} {fd : ℤ} {wt : WaitType} {r : Pending} (h : Inv [] s)
    (ht : TimedOut s s' fd wt r)
    (hpoll : ∀ e ∈ s.pollfds.data, e.revents &&& ~~~ (e.events ||| pollerr) = 0)
    (hnot : ∀ e ∈ s.pollfds.data, e.fd = fd → wt ∉ e.reported) {beh : Behaviour τ}
    (hbeh : Quieting beh) (now : ℤ) (hclear : ∀ fuel, passFinding beh now fuel s' 0 ≠ .fault) :
    ∃ fuel s'', dispatchReadyEvents beh fuel s' now = some s'' ∧ PassServed s' s'' := by
  refine ht.inv.servePass hbeh.keepsToFd now hclear fun e' he' w hw => ?_
  by_cases hr : e'.revents = 0
  · simp [mem_reported, hr] at hw
  · obtain ⟨e, he, hfd, hrev⟩ := ht.entry he' hr
    rw [← reported_congr hrev] at hw
    have hp := h.pending_of_reported he (hpoll e he) (by cases w <;> decide) hw
    rw [ht.view, if_neg]
    · rwa [← hfd]
    · rintro ⟨hc, rfl⟩
      exact hnot e he (hfd.trans hc) hw

/-- A pass completes no event of a valid fd that is not pending. -/
theorem PassServed.completions_vacant {s s' : Svc τ} (hs : PassServed s s') {fd : ℤ} {wt : WaitType}
    (hno : s.view fd wt = none)
    (hvalid : ∀ e ∈ s.pollfds.data, e.fd = fd → e.revents &&& pollnval = 0) {l : List Obs}
    (hl : s'.log = l ++ s.log) : completions fd wt l = [] := by
  obtain ⟨l', hl', -, -, hnone, hserved⟩ := hs.log
  obtain rfl : l = l' := List.append_cancel_right (hl.symm.trans hl')
  by_cases hex : ∃ e ∈ s.pollfds.data, e.fd = fd
  · obtain ⟨e, he, rfl⟩ := hex
    exact ((hserved e he wt).later hno).2 (hvalid e he rfl)
  · exact hnone fd wt fun e he hfd => hex ⟨e, he, hfd⟩

/-- **What a pass completes of the requested bits**: the events of which a bit of their own
is reported. -/
theorem PassServed.completions_requested {s s' : Svc τ} (hs : PassServed s s') {e : PollFd}
    (he : e ∈ s.pollfds.data) (hvalid : e.revents &&& pollnval = 0) {wt : WaitType} {r : Pending}
    (hr : s.view e.fd wt = some r) {l : List Obs} (hl : s'.log = l ++ s.log) :
    completions e.fd wt l = if wt ∈ e.reported then [(.ok, r.handler)] else [] := by
  obtain ⟨l', hl', -, -, -, hserved⟩ := hs.log
  obtain rfl : l = l' := List.append_cancel_right (hl.symm.trans hl')
  have hcode : e.code = .ok := by simp [PollFd.code, hvalid]
  split
  next hw => rw [(hserved e he wt).due r hr ((PollFd.due_iff_reported hvalid).mpr hw), hcode]
  next hw =>
    refine ((hserved e he wt).left r hr ?_).1
    rw [← Bool.not_eq_true, PollFd.due_iff_reported hvalid]
    exact hw

end

/-! ### An iteration -/

/-- The time that a call of `poll` with a given delay takes. -/
def PollOutcome.elapsed (delay : ℤ) : PollOutcome → ℤ
  | .expired late => delay + late
  | .interrupted after _ => after
  | .failed after => after
  | .ready after _ => after

/-- What a call of `poll` reports. -/
def PollOutcome.revents : PollOutcome → List PollMask
  | .expired _ => []
  | .interrupted _ revents => revents
  | .failed _ => []
  | .ready _ revents => revents

/-- The delay that `poll` is given. -/
def Svc.nextDelay (s : Svc RbMem) : ℤ :=
  pollDelay (nextDeadline s).1 s.currentTime

/-- The service when `poll` has returned. -/
def Svc.polled (s : Svc RbMem) (o : PollOutcome) : Svc RbMem :=
  pollReturns s (o.elapsed s.nextDelay) o.revents

/-- `poll` has not failed, and it has not returned 0 without being given a delay. -/
def PollOutcome.succeeds (s : Svc RbMem) : PollOutcome → Prop
  | .expired _ => 0 ≤ s.nextDelay
  | .failed _ => False
  | _ => True

/-- An iteration after an interrupted `poll`. -/
theorem pollAndServe_interrupted (beh : Behaviour RbMem) (fuel : ℕ) (s : Svc RbMem) (after : ℕ)
    (revents : List PollMask) : pollAndServe beh fuel s (.interrupted after revents) =
      afterPoll beh fuel (s.polled (.interrupted after revents)) (nextDeadline s).2 s.nextDelay
        after :=
  rfl

/-- An iteration with ready fds. -/
theorem pollAndServe_ready (beh : Behaviour RbMem) (fuel : ℕ) (s : Svc RbMem) (after : ℕ)
    (revents : List PollMask) : pollAndServe beh fuel s (.ready after revents) =
      afterPoll beh fuel (s.polled (.ready after revents)) (nextDeadline s).2 s.nextDelay after :=
  rfl

/-- An iteration in which the delay runs out. -/
theorem pollAndServe_expired (beh : Behaviour RbMem) (fuel : ℕ) {s : Svc RbMem} (late : ℕ)
    (h : 0 ≤ s.nextDelay) : pollAndServe beh fuel s (.expired late) =
      timeoutFirst beh (s.polled (.expired late)) (nextDeadline s).2
        (s.polled (.expired late)).clock :=
  if_neg h.not_gt

/-- The part of an iteration that deals with the timer. -/
def serveTimer (beh : Behaviour RbMem) (s : Svc RbMem) (isEvent : Bool) (delay elapsed : ℤ) :
    Option (Svc RbMem) := do
  let due ← timerDue s isEvent delay elapsed
  if due then timeoutFirst beh s isEvent s.clock else some s

/-- After `poll` a timer is served if it is due, and then the pass is made. -/
theorem afterPoll_eq (beh : Behaviour RbMem) (fuel : ℕ) (s : Svc RbMem) (isEvent : Bool)
    (delay elapsed : ℤ) : afterPoll beh fuel s isEvent delay elapsed =
      (serveTimer beh s isEvent delay elapsed).bind fun s₁ =>
        dispatchReadyEvents beh fuel s₁ s.clock := by
  simp only [afterPoll, serveTimer, bind, Option.bind_assoc]

/-- Every extraction after `poll` repairs the tree. -/
structure AfterPollRemovals (beh : Behaviour RbMem) (s : Svc RbMem) (isEvent : Bool)
    (delay elapsed : ℤ) : Prop where
  timeout : timerDue s isEvent delay elapsed = some true → isEvent = true →
    timeoutRemovalOk s = true
  pass : ∀ s₁, serveTimer beh s isEvent delay elapsed = some s₁ →
    ∀ fuel, removalsOk beh s.clock fuel s₁ 0 = true

/-- **Nothing that follows `poll` reaches a defect** in the tree or in the heap of timed
events. -/
structure AfterPollClear (beh : Behaviour RbMem) (s : Svc RbMem) (isEvent : Bool)
    (delay elapsed : ℤ) : Prop where
  timeout : timerDue s isEvent delay elapsed = some true → isEvent = true →
    timeoutRemovalOk s = true
  pass : ∀ s₁, serveTimer beh s isEvent delay elapsed = some s₁ →
    ∀ fuel, passFinding beh s.clock fuel s₁ 0 ≠ .fault

/-- **Every extraction of an iteration repairs the tree.** -/
def IterationRemovals (beh : Behaviour RbMem) (s : Svc RbMem) (o : PollOutcome) : Prop :=
  match o with
  | .expired _ => (nextDeadline s).2 = true → timeoutRemovalOk (s.polled o) = true
  | .failed _ => True
  | _ => AfterPollRemovals beh (s.polled o) (nextDeadline s).2 s.nextDelay (o.elapsed s.nextDelay)

/-- **What follows `poll` reaches no defect**, if its extractions repair the tree and no deadline
is negative. -/
theorem AfterPollRemovals.clear {beh : Behaviour RbMem} {s : Svc RbMem} {delay elapsed : ℤ}
    (hrem : AfterPollRemovals beh s true delay elapsed) (h : Inv [] s) (hD : DeadlinesOk s)
    (hbeh : Quieting beh) : AfterPollClear beh s true delay elapsed where
  timeout := hrem.timeout
  pass := fun s₁ hs₁ fuel => by
    have hrem₁ := hrem.pass s₁ hs₁ fuel
    obtain ⟨hinv₁, hD₁⟩ : Inv [] s₁ ∧ DeadlinesOk s₁ := by
      obtain ⟨due, hdue, hs₁⟩ := Option.bind_eq_some_iff.mp hs₁
      cases due with
      | false =>
          obtain rfl := Option.some.inj hs₁
          exact ⟨h, hD⟩
      | true =>
          simp only [if_true, timeoutFirst] at hs₁
          obtain ⟨top, htop, -⟩ := Option.bind_eq_some_iff.mp hs₁
          obtain ⟨fd, r, s₂, -, -, hrun, ht⟩ :=
            h.timeout_quiet hbeh s.clock htop (hrem.timeout hdue rfl)
          obtain rfl := Option.some.inj (hs₁.symm.trans hrun)
          exact ⟨ht.inv, ht.deadlines hD⟩
    exact hinv₁.passFinding_timed hbeh.keepsToFd hD₁ (hbeh.passTimed s.clock fuel s₁ 0) hrem₁

/-- **The loop takes the timer for due**, if it is not that of an event which is ready. -/
def timerTaken (s : Svc RbMem) (o : PollOutcome) : Prop :=
  match o with
  | .expired _ => True
  | _ => s.nextDelay ≤ (Int32.ofInt (o.elapsed s.nextDelay)).toInt ∧ s.nextDelay ≠ -1

/-- The event is ready for `is_top_event_ready`. -/
def PollFd.ready (e : PollFd) (wt : WaitType) : Bool :=
  decide (e.revents &&& readyMask wt ≠ 0)

section

variable {s : Svc RbMem} {beh : Behaviour RbMem} {top : AsyncHeapEntry} {fd : ℤ} {r : Pending}
  {e : PollFd}

/-- The first event is timed out before a pass, and not completed again by it. -/
theorem Inv.afterPoll_timeout (h : Inv [] s) (hbeh : Quieting beh)
    (hpoll : ∀ e ∈ s.pollfds.data, e.revents &&& ~~~ (e.events ||| pollerr) = 0)
    (htop : s.timed[0]? = some top) (hfd : lookup s.asyncHandlers fd = some top.ioOpData)
    (hr : s.view fd top.eventType = some r) (he : e ∈ s.pollfds.data) (hefd : e.fd = fd)
    (hready : e.ready top.eventType = false) {delay elapsed : ℤ}
    (hdue : timerDue s true delay elapsed = some true)
    (hclear : AfterPollClear beh s true delay elapsed) :
    ∃ fuel s' l, afterPoll beh fuel s true delay elapsed = some s' ∧ s'.log = l ++ s.log ∧
      completions fd top.eventType l = [(.timeout, r.handler)] := by
  obtain ⟨fd', r', s₁, hfd', hr', hrun, ht⟩ :=
    h.timeout_quiet hbeh s.clock htop (hclear.timeout hdue rfl)
  obtain rfl : fd = fd' := h.lookup_inj hfd hfd'
  obtain rfl : r = r' := Option.some.inj (hr.symm.trans hr')
  have hserve : serveTimer beh s true delay elapsed = some s₁ := by
    simp only [serveTimer, hdue, bind, Option.bind_some, if_true, timeoutFirst, hrun]
  have hnot : ∀ e' ∈ s.pollfds.data, e'.fd = fd → top.eventType ∉ e'.reported := by
    intro e' he' hfd' hw
    obtain rfl := h.entry_unique he he' (hfd'.trans hefd.symm)
    exact ready_of_reported hw (by simpa [PollFd.ready] using hready)
  obtain ⟨fuel, s', hpass, hs⟩ := ht.pass h hpoll hnot hbeh s.clock (hclear.pass s₁ hserve)
  obtain ⟨l₁, hl₁, hc₁⟩ := ht.log
  obtain ⟨l₂, hl₂, -⟩ := hs.log
  refine ⟨fuel, s', l₂ ++ l₁, ?_, by rw [hl₂, hl₁, List.append_assoc], ?_⟩
  · rw [afterPoll_eq, hserve, Option.bind_some, hpass]
  · have hvalid : ∀ e' ∈ s₁.pollfds.data, e'.fd = fd → e'.revents &&& pollnval = 0 := by
      intro e' he' _
      by_cases hz : e'.revents = 0
      · simp [hz]
      · obtain ⟨e₀, he₀, -, hrev⟩ := ht.entry he' hz
        rw [← hrev]
        exact h.valid_of_requested he₀ (hpoll e₀ he₀)
    rw [completions_append, hs.completions_vacant (by rw [ht.view, if_pos ⟨rfl, rfl⟩]) hvalid hl₂,
      hc₁, if_pos ⟨rfl, rfl⟩]
    rfl

/-- Without a timer that is due an iteration is a pass. -/
theorem Inv.afterPoll_pass (h : Inv [] s) (hbeh : Quieting beh)
    (hpoll : ∀ e ∈ s.pollfds.data, e.revents &&& ~~~ (e.events ||| pollerr) = 0) {isEvent : Bool}
    {delay elapsed : ℤ} (hdue : timerDue s isEvent delay elapsed = some false)
    (hclear : AfterPollClear beh s isEvent delay elapsed) :
    ∃ fuel s', dispatchReadyEvents beh fuel s s.clock = some s' ∧ PassServed s s' ∧
      ∀ k, afterPoll beh k s isEvent delay elapsed = dispatchReadyEvents beh k s s.clock := by
  have hserve : serveTimer beh s isEvent delay elapsed = some s := by
    simp only [serveTimer, hdue, bind, Option.bind_some, Bool.false_eq_true, if_false]
  obtain ⟨fuel, s', hrun, hs⟩ := h.servePass hbeh.keepsToFd s.clock (hclear.pass s hserve)
    fun e he wt hwt => h.pending_of_reported he (hpoll e he) (by cases wt <;> decide) hwt
  refine ⟨fuel, s', hrun, hs, fun k => ?_⟩
  rw [afterPoll_eq, hserve, Option.bind_some]

/-- The test of the loop, when the next deadline is that of an event. -/
theorem timerDue_event {ready : Bool} (htest : isTopEventReady s = some ready)
    (delay elapsed : ℤ) : timerDue s true delay elapsed =
      some (decide (delay ≤ (Int32.ofInt elapsed).toInt ∧ delay ≠ -1) && !ready) := by
  unfold timerDue
  split
  next hc => rw [if_pos rfl, htest, Option.map_some, decide_eq_true hc, Bool.true_and]
  next hc => rw [decide_eq_false hc, Bool.false_and]

/-- The first event in an iteration with a pass. -/
theorem Inv.afterPoll_top_iff (h : Inv [] s) (hbeh : Quieting beh)
    (hpoll : ∀ e ∈ s.pollfds.data, e.revents &&& ~~~ (e.events ||| pollerr) = 0)
    (htop : s.timed[0]? = some top) (hfd : lookup s.asyncHandlers fd = some top.ioOpData)
    (hr : s.view fd top.eventType = some r) (he : e ∈ s.pollfds.data) (hefd : e.fd = fd)
    (htest : isTopEventReady s = some (e.ready top.eventType)) (delay elapsed : ℤ)
    (hclear : AfterPollClear beh s true delay elapsed) :
    (∃ fuel s' l, afterPoll beh fuel s true delay elapsed = some s' ∧ s'.log = l ++ s.log ∧
      completions fd top.eventType l =
        [(if e.ready top.eventType then .ok else .timeout, r.handler)]) ↔
    if e.ready top.eventType then e.revents &&& dequeueMask top.eventType ≠ 0
      else delay ≤ (Int32.ofInt elapsed).toInt ∧ delay ≠ -1 := by
  have hvalid := h.valid_of_requested he (hpoll e he)
  have hreported : top.eventType ∈ e.reported ↔ e.revents &&& dequeueMask top.eventType ≠ 0 :=
    mem_reported.trans (and_iff_right hvalid)
  have hdue := timerDue_event htest delay elapsed
  -- what a run without a timeout completes
  have hpass : timerDue s true delay elapsed = some false → ∀ {fuel s' l},
      afterPoll beh fuel s true delay elapsed = some s' → s'.log = l ++ s.log →
      completions fd top.eventType l =
        if top.eventType ∈ e.reported then [(.ok, r.handler)] else [] := by
    intro hno fuel s' l hrun hl
    obtain ⟨fuel₁, s₁, hrun₁, hs₁, heq⟩ := h.afterPoll_pass hbeh hpoll hno hclear
    obtain rfl := dispatchLoop_unique hrun₁ ((heq fuel).symm.trans hrun)
    subst hefd
    exact hs₁.completions_requested he hvalid hr hl
  cases hready : e.ready top.eventType with
  | true =>
      rw [hready, Bool.not_true, Bool.and_false] at hdue
      simp only [if_true, ← hreported]
      constructor
      · rintro ⟨fuel, s', l, hrun, hl, hc⟩
        rw [hpass hdue hrun hl] at hc
        split at hc
        next hw => exact hw
        next => cases hc
      · intro hw
        obtain ⟨fuel, s', hrun, hs, heq⟩ := h.afterPoll_pass hbeh hpoll hdue hclear
        obtain ⟨l, hl, -⟩ := hs.log
        refine ⟨fuel, s', l, (heq fuel).trans hrun, hl, ?_⟩
        rw [hpass hdue ((heq fuel).trans hrun) hl, if_pos hw]
  | false =>
      rw [hready, Bool.not_false, Bool.and_true] at hdue
      simp only [Bool.false_eq_true, if_false]
      constructor
      · rintro ⟨fuel, s', l, hrun, hl, hc⟩
        by_contra hno
        rw [decide_eq_false hno] at hdue
        rw [hpass hdue hrun hl] at hc
        split at hc <;> simp at hc
      · intro hyes
        rw [decide_eq_true hyes] at hdue
        exact h.afterPoll_timeout hbeh hpoll htop hfd hr he hefd hready hdue hclear

/-- No report is no reason for readiness. -/
theorem setRevents_nil {P : List PollFd} {e : PollFd} (he : e ∈ setRevents P []) :
    e.revents = 0 := by
  induction P with
  | nil => cases he
  | cons e₀ P ih =>
      rcases List.mem_cons.mp he with rfl | he
      · rfl
      · exact ih he

/-- The next deadline, when it is an event's. -/
theorem nextDeadline_event (htop : s.timed[0]? = some top) (hnext : (nextDeadline s).2 = true) :
    (nextDeadline s).1 = top.deadline := by
  unfold nextDeadline at hnext ⊢
  rw [htop] at hnext ⊢
  cases hd : s.timedHandlersHeap.data[0]? with
  | none => simp
  | some ent =>
      simp only [hd] at hnext ⊢
      split
      next => rfl
      next hc => simp [hc] at hnext

/-- The next deadline, when it is an event's, is that of the first timed one. -/
theorem exists_event_of_next (hnext : (nextDeadline s).2 = true) :
    ∃ top, s.timed[0]? = some top ∧ (nextDeadline s).1 = top.deadline := by
  cases he : s.timed[0]? with
  | none =>
      unfold nextDeadline at hnext
      rw [he] at hnext
      cases hd : s.timedHandlersHeap.data[0]? <;> simp [hd] at hnext
  | some top => exact ⟨top, rfl, nextDeadline_event he hnext⟩

/-- A timer is due only when its delay has passed. -/
theorem passed_of_timerDue {isEvent : Bool} {delay elapsed : ℤ}
    (hdue : timerDue s isEvent delay elapsed = some true) :
    delay ≤ (Int32.ofInt elapsed).toInt ∧ delay ≠ -1 := by
  unfold timerDue at hdue
  split at hdue
  next hc => exact hc
  next => cases hdue

/-- The log entry is a handler that starts. -/
def Obs.isInvoked : Obs → Bool
  | .invoked .. => true
  | _ => false

/-- What is completed is a call of a handler. -/
theorem invoked_of_completions {wt : WaitType} {l : List Obs} (h : completions fd wt l ≠ []) :
    ∃ o ∈ l, o.isInvoked = true := by
  obtain ⟨c, hc⟩ := List.exists_mem_of_ne_nil _ h
  obtain ⟨o, ho, hoc⟩ := List.mem_filterMap.mp hc
  refine ⟨o, ho, ?_⟩
  cases o <;> simp_all [Obs.completion, Obs.isInvoked]

/-- The first delayed handler is called, with a quiet handler. -/
theorem timeoutDelay_quiet (hbeh : Quieting beh) {ent : DelayHeapEntry}
    (htop : s.timedHandlersHeap.data[0]? = some ent)
    (hlive : ent.handler.callback.isSome = true) :
    ∃ s' o, timeoutDelay beh s = some s' ∧ s' = { s with
      timedHandlersHeap := s'.timedHandlersHeap
      clock := s'.clock
      ints := s'.ints
      errs := s'.errs
      log := o :: s.log } ∧ o.isInvoked = true := by
  obtain ⟨s₁, hs₁⟩ : ∃ s₁, s₁ = s.signal ent.status .ok := ⟨_, rfl⟩
  have hsame₁ : s₁ = { s with errs := s₁.errs } := by
    rw [hs₁, signal_eq]
  obtain ⟨dt, ints, errs, hcall⟩ := callHandler_quiet hbeh (.delay ent .ok) hlive s₁
  have hheap : s₁.timedHandlersHeap = s.timedHandlersHeap := by rw [hsame₁]
  obtain ⟨s', hpop, hsame⟩ := popDelay_total (s := { s₁.note (.invoked (.delay ent .ok)
      ent.handler s₁.clock s₁.ints s₁.errs) with
    clock := s₁.clock + dt, ints := ints, errs := errs })
    (show s₁.timedHandlersHeap.data[0]? = some ent from hheap ▸ htop)
  refine ⟨s', .invoked (.delay ent .ok) ent.handler s₁.clock s₁.ints s₁.errs, ?_, ?_, rfl⟩
  · rw [timeoutDelay_eq, htop, Option.bind_some, ← hs₁, hcall, Option.bind_some, hpop]
  · rw [hsame, hsame₁]
    rfl

/-- The first delayed handler is called before a pass. -/
theorem Inv.afterPoll_delay (h : Inv [] s) (hbeh : Quieting beh)
    (hpoll : ∀ e ∈ s.pollfds.data, e.revents &&& ~~~ (e.events ||| pollerr) = 0)
    {ent : DelayHeapEntry} (htop : s.timedHandlersHeap.data[0]? = some ent)
    (hlive : ent.handler.callback.isSome = true) {delay elapsed : ℤ}
    (hdue : timerDue s false delay elapsed = some true)
    (hclear : AfterPollClear beh s false delay elapsed) :
    ∃ fuel s' l, afterPoll beh fuel s false delay elapsed = some s' ∧ s'.log = l ++ s.log ∧
      ∃ o ∈ l, o.isInvoked = true := by
  obtain ⟨s₁, o, hrun, hsame, ho⟩ := timeoutDelay_quiet hbeh htop hlive
  have hserve : serveTimer beh s false delay elapsed = some s₁ := by
    simp only [serveTimer, hdue, bind, Option.bind_some, if_true, timeoutFirst,
      Bool.false_eq_true, if_false, hrun]
  have hlog₁ : s₁.log = o :: s.log := by rw [hsame]
  have h₁ : Inv [] s₁ := by
    rw [hsame]
    exact h.frame rfl rfl rfl rfl le_rfl
  have hpoll₁ : ∀ e ∈ s₁.pollfds.data, e.revents &&& ~~~ (e.events ||| pollerr) = 0 := by
    rw [hsame]
    exact hpoll
  obtain ⟨fuel, s', hpass, hs⟩ := h₁.servePass hbeh.keepsToFd s.clock (hclear.pass s₁ hserve)
    fun e he wt hwt => h₁.pending_of_reported he (hpoll₁ e he) (by cases wt <;> decide) hwt
  obtain ⟨l, hl, -⟩ := hs.log
  refine ⟨fuel, s', l ++ [o], ?_, by rw [hl, hlog₁]; simp, o, by simp, ho⟩
  rw [afterPoll_eq, hserve, Option.bind_some, hpass]

/-- A delay comes from a timer. -/
theorem delayed_of_nextDelay (hnext : (nextDeadline s).2 = false) (hdelay : s.nextDelay ≠ -1) :
    ∃ ent, s.timedHandlersHeap.data[0]? = some ent := by
  cases hd : s.timedHandlersHeap.data[0]? with
  | some ent => exact ⟨ent, rfl⟩
  | none =>
      exfalso
      cases ht : s.timed[0]? with
      | some top => simp [nextDeadline, hd, ht] at hnext
      | none =>
          refine hdelay ?_
          simp [Svc.nextDelay, nextDeadline, hd, ht, pollDelay]

/-- The loop can tell whether the first timer is due. -/
theorem Inv.timerDue_eq_some (h : Inv [] s) (delay elapsed : ℤ) :
    ∃ due, timerDue s (nextDeadline s).2 delay elapsed = some due := by
  cases hnext : (nextDeadline s).2 with
  | true =>
      obtain ⟨top, htop, -⟩ := exists_event_of_next hnext
      obtain ⟨fd, e, -, -, -, htest⟩ := h.topReady htop
      exact ⟨_, timerDue_event htest delay elapsed⟩
  | false =>
      unfold timerDue
      split
      · exact ⟨true, rfl⟩
      · exact ⟨false, rfl⟩

/-- The first timed event is timed out when it is due, and is completed so. -/
theorem Inv.afterPoll_event (h : Inv [] s) (hbeh : Quieting beh)
    (hpoll : ∀ e ∈ s.pollfds.data, e.revents &&& ~~~ (e.events ||| pollerr) = 0)
    {delay elapsed : ℤ} (hdue : timerDue s true delay elapsed = some true)
    (hclear : AfterPollClear beh s true delay elapsed) (htop : s.timed[0]? = some top) :
    ∃ fuel s' l, afterPoll beh fuel s true delay elapsed = some s' ∧ s'.log = l ++ s.log ∧
      ∃ o ∈ l, o.isInvoked = true := by
  obtain ⟨fd, e, hfd, he, hefd, htest⟩ := h.topReady htop
  obtain ⟨d, hd, -⟩ := h.linked 0 top htop
  have hr : s.view fd top.eventType =
      some (d.pendingWith (entryOf s.timed top.ioOpData top.eventType)) := by
    rw [view_of_lookup hfd, hd]
    rfl
  have hready : e.ready top.eventType = false := by
    have := (timerDue_event htest delay elapsed).symm.trans hdue
    rw [Option.some.injEq, Bool.and_eq_true] at this
    exact Bool.not_eq_true' _ ▸ this.2
  obtain ⟨fuel, s', l, hrun, hl, hc⟩ :=
    h.afterPoll_timeout hbeh hpoll htop hfd hr he hefd hready hdue hclear
  exact ⟨fuel, s', l, hrun, hl, invoked_of_completions
    (show completions fd top.eventType l ≠ [] by simp [hc])⟩

/-- **An iteration with a ready fd** calls a handler, if a bit other than `POLLERR` is reported
or a timer is due. -/
theorem Inv.iteration_progress (h : Inv [] s) (hbeh : Quieting beh) {after : ℕ}
    {revents : List PollMask} (hpoll : ∀ e ∈ (s.polled (.ready after revents)).pollfds.data,
      e.revents &&& ~~~ (e.events ||| pollerr) = 0)
    (hdelay : ∀ ent, s.timedHandlersHeap.data[0]? = some ent →
      ent.handler.callback.isSome = true)
    (hclear : AfterPollClear beh (s.polled (.ready after revents)) (nextDeadline s).2 s.nextDelay
      after)
    (hcond : (∃ e ∈ (s.polled (.ready after revents)).pollfds.data,
        e.revents ≠ 0 ∧ e.revents ≠ pollerr) ∨
      timerDue (s.polled (.ready after revents)) (nextDeadline s).2 s.nextDelay after =
        some true) :
    ∃ fuel s' l, pollAndServe beh fuel s (.ready after revents) = some s' ∧ s'.log = l ++ s.log ∧
      ∃ o ∈ l, o.isInvoked = true := by
  have hp : Inv [] (s.polled (.ready after revents)) := h.pollReturns _ _
  simp only [pollAndServe_ready]
  obtain ⟨due, hdue⟩ := hp.timerDue_eq_some s.nextDelay after
  have hdue : timerDue (s.polled (.ready after revents)) (nextDeadline s).2 s.nextDelay after =
    some due := hdue
  cases due with
  | false =>
      -- the pass completes a reported event
      obtain ⟨e, he, hne, herr⟩ := hcond.resolve_right (by simp [hdue])
      obtain ⟨fuel, s', hrun, hs, heq⟩ := hp.afterPoll_pass hbeh hpoll hdue hclear
      obtain ⟨l, hl, -⟩ := hs.log
      obtain ⟨wt, hwt, hview⟩ := hp.exists_reported he (hpoll e he) hne herr
      obtain ⟨r, hr⟩ := Option.isSome_iff_exists.mp hview
      refine ⟨fuel, s', l, (heq fuel).trans hrun, hl, invoked_of_completions
        (show completions e.fd wt l ≠ [] from ?_)⟩
      rw [hs.completions_requested he (hp.valid_of_requested he (hpoll e he)) hr hl, if_pos hwt]
      simp
  | true =>
      cases hnext : (nextDeadline s).2 with
      | true =>
          rw [hnext] at hdue hclear
          obtain ⟨top, htop, -⟩ := exists_event_of_next hnext
          exact hp.afterPoll_event hbeh hpoll hdue hclear htop
      | false =>
          rw [hnext] at hdue hclear
          obtain ⟨ent, hent⟩ := delayed_of_nextDelay hnext (passed_of_timerDue hdue).2
          exact hp.afterPoll_delay hbeh hpoll hent (hdelay ent hent) hdue hclear

/-- **A pass of which nothing is reported** does nothing. -/
theorem Inv.dispatchLoop_idle (h : Inv [] s) {now : ℤ}
    (hidle : ∀ e ∈ s.pollfds.data, e.revents &&& pollnval = 0 ∧ e.reported = []) {fuel i : ℕ}
    {s' : Svc RbMem} (hrun : dispatchLoop beh now fuel s i = some s') : s' = s := by
  induction fuel generalizing i with
  | zero => cases hrun
  | succ fuel ih =>
      rw [dispatchLoop] at hrun
      split at hrun
      next hi =>
        obtain ⟨e, he⟩ := exists_getElem? hi
        obtain ⟨hvalid, hnone⟩ := hidle e (List.mem_of_getElem? he)
        obtain ⟨-, -, -, -, -, -, -, hne⟩ := h.entry_at he
        rw [(h.dispatchEntry_idle beh now he (hne (by simp)) hvalid hnone).2] at hrun
        exact ih hrun
      next => exact (Option.some.inj hrun).symm

/-- An iteration without a timer that is due, of which `POLLERR` alone is reported, calls
nothing. -/
theorem Inv.iteration_idle (h : Inv [] s) {after fuel : ℕ} {revents : List PollMask}
    (hidle : ∀ e ∈ (s.polled (.ready after revents)).pollfds.data,
      e.revents = 0 ∨ e.revents = pollerr)
    (hdue : timerDue (s.polled (.ready after revents)) (nextDeadline s).2 s.nextDelay after ≠
      some true) {s' : Svc RbMem}
    (hrun : pollAndServe beh fuel s (.ready after revents) = some s') : s'.log = s.log := by
  have hp : Inv [] (s.polled (.ready after revents)) := h.pollReturns _ _
  rw [pollAndServe_ready] at hrun
  obtain ⟨due, htimer, hrun⟩ := Option.bind_eq_some_iff.mp hrun
  obtain ⟨s₁, hs₁, hrun⟩ := Option.bind_eq_some_iff.mp hrun
  cases due with
  | true => exact absurd htimer hdue
  | false =>
      obtain rfl := Option.some.inj hs₁
      obtain rfl := hp.dispatchLoop_idle (fun e he => by
        unfold PollFd.reported
        rcases hidle e he with hr | hr <;> rw [hr] <;> decide) hrun
      rfl

/-- A read or a write of the fd is pending. -/
def readOrWrite (s : Svc RbMem) (fd : ℤ) : Bool :=
  (s.view fd .read).isSome || (s.view fd .write).isSome

/-- **Progress with ready fds.** In a consistent service let `poll` report requested bits and
`POLLERR`, let the handlers make no calls, and let neither a pass nor an iteration reach a
defect in the heap of timed events or in the tree. Then a pass returns, and of every fd with a
read or a write of which something is reported it has completed a pending event if and only if
what is reported is not `POLLERR` alone. And an iteration calls a handler if and only if
something else than `POLLERR` alone is reported of an fd, or a timer is due. -/
theorem ready_completes_iff (h : Inv [] s) {after : ℕ} {revents : List PollMask}
    (hpoll : ∀ e ∈ (s.polled (.ready after revents)).pollfds.data,
      e.revents &&& ~~~ (e.events ||| pollerr) = 0) (hbeh : Quieting beh)
    (hdelay : ∀ ent, s.timedHandlersHeap.data[0]? = some ent →
      ent.handler.callback.isSome = true) (now : ℤ)
    (hpass : ∀ fuel, passFinding beh now fuel (s.polled (.ready after revents)) 0 ≠ .fault)
    (hclear : AfterPollClear beh (s.polled (.ready after revents)) (nextDeadline s).2 s.nextDelay
      after) :
    (∃ fuel s' l, dispatchReadyEvents beh fuel (s.polled (.ready after revents)) now = some s' ∧
      s'.log = l ++ s.log ∧ ∀ e ∈ (s.polled (.ready after revents)).pollfds.data,
        readOrWrite s e.fd = true → e.revents ≠ 0 →
        ((∃ wt r, s.view e.fd wt = some r ∧ completions e.fd wt l = [(.ok, r.handler)]) ↔
          e.revents ≠ pollerr)) ∧
    ((∃ fuel s' l, pollAndServe beh fuel s (.ready after revents) = some s' ∧
        s'.log = l ++ s.log ∧ ∃ o ∈ l, o.isInvoked = true) ↔
      (∃ e ∈ (s.polled (.ready after revents)).pollfds.data,
        e.revents ≠ 0 ∧ e.revents ≠ pollerr) ∨
      timerDue (s.polled (.ready after revents)) (nextDeadline s).2 s.nextDelay after =
        some true) := by
  refine ⟨?_, ?_, fun hcond => h.iteration_progress hbeh hpoll hdelay hclear hcond⟩
  · have hp : Inv [] (s.polled (.ready after revents)) := h.pollReturns _ _
    obtain ⟨fuel, s', hrun, hs⟩ := hp.servePass hbeh.keepsToFd now hpass
      fun e he wt hwt => hp.pending_of_reported he (hpoll e he) (by cases wt <;> decide) hwt
    obtain ⟨l, hl, -⟩ := hs.log
    refine ⟨fuel, s', l, hrun, hl, fun e he hrw hne => ?_⟩
    have hserved : ∀ wt r, s.view e.fd wt = some r →
        completions e.fd wt l = if wt ∈ e.reported then [(.ok, r.handler)] else [] :=
      fun wt r hr => hs.completions_requested he (hp.valid_of_requested he (hpoll e he)) hr hl
    constructor
    · rintro ⟨wt, r, hr, hc⟩ herr
      -- `POLLERR` is no event's own
      have hno : wt ∉ e.reported := by
        rw [mem_reported, herr]
        cases wt <;> decide
      rw [hserved wt r hr, if_neg hno] at hc
      cases hc
    · intro herr
      obtain ⟨wt, hwt, hview⟩ := hp.exists_reported he (hpoll e he) hne herr
      obtain ⟨r, hr⟩ := Option.isSome_iff_exists.mp hview
      exact ⟨wt, r, hr, by rw [hserved wt r hr, if_pos hwt]⟩
  · rintro ⟨fuel, s', l, hrun, hl, o, ho, -⟩
    by_contra hno
    obtain ⟨hidle, hdue⟩ := not_or.mp hno
    have hsame := h.iteration_idle (fun e he => by
      by_cases hz : e.revents = 0
      · exact .inl hz
      · exact .inr (by_contra fun herr => hidle ⟨e, he, hz, herr⟩)) hdue hrun
    obtain rfl : l = [] := by
      rw [hsame] at hl
      exact List.self_eq_append_left.mp hl
    cases ho

end

/-- Reads of fds 5 and 6 are pending, and one of fd 7 with a deadline of `-1`; fd 5 is ready, and of
fd 6 `POLLERR` alone is reported. The read of fd 5 is completed, and that of fd 6 is not. -/
theorem ready_completes_iff_mixed :
    ∃ s : Svc RbMem, Inv [] s ∧ readOrWrite s 5 = true ∧ readOrWrite s 6 = true ∧
      (∃ fuel s' l, dispatchReadyEvents (fun _ _ => .ret) fuel
          (s.polled (.ready 0 [pollin, pollerr, 0])) 0 = some s' ∧ s'.log = l ++ s.log ∧
        (∃ wt r, s.view 5 wt = some r ∧ completions 5 wt l = [(.ok, r.handler)]) ∧
        ¬ ∃ wt r, s.view 6 wt = some r ∧ completions 6 wt l = [(.ok, r.handler)]) ∧
      ∃ fuel s' l, pollAndServe (fun _ _ => .ret) fuel s (.ready 0 [pollin, pollerr, 0]) = some s' ∧
        s'.log = l ++ s.log ∧ ∃ o ∈ l, o.isInvoked = true := by
  obtain ⟨s, fds, hs, hsched⟩ :=
    schedAll_new [readCall 5, readCall 6, overdueReadCall 7] (by decide)
  have hobs : (schedAll (newService 0 (fun _ => 0) fun _ => .ok)
      [readCall 5, readCall 6, overdueReadCall 7]).any (fun s =>
      let p := s.started.polled (.ready 0 [pollin, pollerr, 0])
      decide (readOrWrite s.started 5 = true ∧ readOrWrite s.started 6 = true ∧
        s.timedHandlersHeap.data[0]? = none ∧
        p.pollfds.data.map (fun e => (e.fd, e.revents)) = [(5, pollin), (6, pollerr), (7, 0)] ∧
        (∀ e ∈ p.pollfds.data, e.revents &&& ~~~ (e.events ||| pollerr) = 0) ∧
        timerDue p (nextDeadline s.started).2 s.started.nextDelay 0 = some false ∧
        (dispatchLoop (fun _ _ => .ret) 0 4 p 0).isSome = true ∧ p.clock = 0 ∧
        passFinding (fun _ _ => .ret) 0 4 p 0 = .good)) = true := by decide
  rw [hs, Option.any_some, decide_eq_true_eq] at hobs
  obtain ⟨hrw₅, hrw₆, hdelays, hpolls, hbits, hdue, hends, hclock, hgood⟩ := hobs
  have hfind := passFinding_of_ends hends hgood
  have hclear : AfterPollClear (fun _ _ => .ret)
      (s.started.polled (.ready 0 [pollin, pollerr, 0])) (nextDeadline s.started).2
      s.started.nextDelay (0 : ℕ) := by
    refine ⟨fun hc => ?_, fun s₁ hs₁ fuel => ?_⟩
    · rw [Nat.cast_zero, hdue] at hc
      cases hc
    · simp only [serveTimer, Nat.cast_zero, hdue, bind, Option.bind_some, Bool.false_eq_true,
        if_false, Option.some.injEq] at hs₁
      rw [← hs₁, hclock, hfind]
      decide
  have hdelay : ∀ ent, s.started.timedHandlersHeap.data[0]? = some ent →
      ent.handler.callback.isSome = true := fun ent hent => by
    rw [show s.started.timedHandlersHeap.data[0]? = none from hdelays] at hent
    cases hent
  obtain ⟨⟨fuel, s', l, hrun, hl, hserved⟩, hiter⟩ := ready_completes_iff hsched.started hbits
    (fun _ _ => rfl) hdelay 0 (fun fuel => by rw [hfind]; decide) hclear
  -- the entries of the three fds
  have hentry : ∀ fd r, (fd, r) ∈ [((5 : ℤ), pollin), (6, pollerr), (7, 0)] →
      ∃ e ∈ (s.started.polled (.ready 0 [pollin, pollerr, 0])).pollfds.data, e.fd = fd ∧
        e.revents = r := by
    intro fd r hm
    rw [← hpolls] at hm
    obtain ⟨e, he, heq⟩ := List.mem_map.mp hm
    exact ⟨e, he, (Prod.mk.inj heq).1, (Prod.mk.inj heq).2⟩
  obtain ⟨e₅, he₅, hfd₅, hr₅⟩ := hentry 5 pollin (by simp)
  obtain ⟨e₆, he₆, hfd₆, hr₆⟩ := hentry 6 pollerr (by simp)
  refine ⟨s.started, hsched.started, hrw₅, hrw₆, ⟨fuel, s', l, hrun, hl, ?_, fun hc => ?_⟩,
    hiter.mpr (.inl ⟨e₅, he₅, by rw [hr₅]; decide, by rw [hr₅]; decide⟩)⟩
  · have := (hserved e₅ he₅ (by rw [hfd₅]; exact hrw₅) (by rw [hr₅]; decide)).mpr
      (by rw [hr₅]; decide)
    rwa [hfd₅] at this
  · exact (hserved e₆ he₆ (by rw [hfd₆]; exact hrw₆) (by rw [hr₆]; decide)).mp
      (by rw [hfd₆]; exact hc) hr₆

/-- **An error alone is not served**: a read of fd 5 is pending, `poll` reports `POLLERR` for
it, which was requested, and a pass calls nothing. -/
theorem dispatch_error_without_progress :
    ¬ ∀ (s : Svc RbMem) (beh : Behaviour RbMem) (now : ℤ), Inv [] s → s.status = .running →
      DeadlinesOk s → (∀ e ∈ s.pollfds.data, e.revents &&& ~~~ e.events = 0) → Quieting beh →
      ∀ fuel s' l, dispatchReadyEvents beh fuel s now = some s' → s'.log = l ++ s.log →
        ∀ e ∈ s.pollfds.data, readOrWrite s e.fd = true → e.revents ≠ 0 →
          ∃ o ∈ l, o.isInvoked = true := by
  intro h
  obtain ⟨s, fds, hs, hsched⟩ := schedAll_new [readCall 5] (by decide)
  have hobs : (schedAll (newService 0 (fun _ => 0) fun _ => .ok) [readCall 5]).any (fun s =>
      let p := s.reporting [pollerr]
      decide ((∀ e ∈ s.timed, 0 ≤ e.deadline) ∧
        (∀ e ∈ p.pollfds.data, e.revents &&& ~~~ e.events = 0) ∧
        p.pollfds.data.map (fun e => (e.revents, readOrWrite p e.fd)) = [(pollerr, true)] ∧
        (dispatchLoop (fun _ _ => .ret) 0 2 p 0).isSome = true)) = true := by decide
  rw [hs, Option.any_some, decide_eq_true_eq] at hobs
  obtain ⟨hdead, hbits, hrev, hrun⟩ := hobs
  obtain ⟨s', hrun⟩ := Option.isSome_iff_exists.mp hrun
  obtain ⟨e, he, hpair⟩ := List.mem_map.mp
    (show (pollerr, true) ∈ (s.reporting [pollerr]).pollfds.data.map
      (fun e => (e.revents, readOrWrite (s.reporting [pollerr]) e.fd)) by rw [hrev]; simp)
  obtain ⟨herr, hrw⟩ := Prod.mk.inj hpair
  have hinv : Inv [] (s.reporting [pollerr]) := hsched.inv.reporting [pollerr]
  obtain rfl := hinv.dispatchLoop_idle (fun e he => by
    have hm := List.mem_map_of_mem
      (f := fun e => (e.revents, readOrWrite (s.reporting [pollerr]) e.fd)) he
    rw [hrev, List.mem_singleton, Prod.mk.injEq] at hm
    rw [PollFd.reported, hm.1]
    decide) hrun
  obtain ⟨o, ho, -⟩ := h (s.reporting [pollerr]) (fun _ _ => .ret) 0 hinv rfl
    (deadlinesOk_of_timed hdead) hbits (fun _ _ => rfl) 2 _ [] hrun rfl e he hrw
    (by rw [herr]; decide)
  cases ho

section

variable {s : Svc RbMem} {beh : Behaviour RbMem} {top : AsyncHeapEntry} {fd : ℤ} {r : Pending}
  {e : PollFd}

/-- **When the timer is taken for due**: once the deadline has been reached, if it was less
than 2 ^ 31 milliseconds ahead and `poll` has not taken longer than that. -/
theorem timerTaken_of_reached (hD : DeadlinesOk s) (h : Inv [] s) (htop : s.timed[0]? = some top)
    (hnext : (nextDeadline s).2 = true) {o : PollOutcome}
    (hreached : top.deadline ≤ (s.polled o).clock)
    (hahead : top.deadline - s.clock < 2 ^ 31) (htook : 0 ≤ o.elapsed s.nextDelay)
    (hfits : o.elapsed s.nextDelay < 2 ^ 31) : timerTaken s o := by
  obtain ⟨fd, r, hr, ht⟩ := h.timer_of_mem (List.mem_of_getElem? htop)
  have hpos : 0 ≤ top.deadline := hD fd _ r _ _ hr ht
  have hdeadline := nextDeadline_event htop hnext
  have hclock : (s.polled o).clock = s.clock + o.elapsed s.nextDelay := rfl
  have hdelay : s.nextDelay = max 0 (top.deadline - s.clock) := by
    simp only [Svc.nextDelay, hdeadline, pollDelay, Svc.currentTime]
    rw [if_neg (by omega)]
    split
    next hlt =>
      rw [Int32.toInt_ofInt_of_le (by omega) (by omega)]
      omega
    next => omega
  unfold timerTaken
  split
  next => trivial
  next =>
    rw [Int32.toInt_ofInt_of_le (by omega) (by omega)]
    omega

/-- **The first timed event in an iteration.** In a consistent service whose next deadline is
that of an event, let `poll` not fail and report requested bits and `POLLERR`, and let the
handlers make no calls. Then the event is completed in the iteration exactly once, with
`EIO_OK` if `is_top_event_ready` holds for it and with `EIO_TIMEOUT` otherwise, if and only
if the report that made it ready has a bit that the dispatcher counts too, or, when it is not
ready, the loop takes the timer for due. -/
theorem top_event_completed_iff (h : Inv [] s) (hD : DeadlinesOk s)
    (htop : s.timed[0]? = some top) (hnext : (nextDeadline s).2 = true) {o : PollOutcome}
    (hreturns : o.succeeds s)
    (hpoll : ∀ e ∈ (s.polled o).pollfds.data, e.revents &&& ~~~ (e.events ||| pollerr) = 0)
    (hbeh : Quieting beh) (hrem : IterationRemovals beh s o) :
    ∃ fd r e, lookup s.asyncHandlers fd = some top.ioOpData ∧
      s.view fd top.eventType = some r ∧ e ∈ (s.polled o).pollfds.data ∧ e.fd = fd ∧
      isTopEventReady (s.polled o) = some (e.ready top.eventType) ∧
      ((∃ fuel s' l, pollAndServe beh fuel s o = some s' ∧ s'.log = l ++ s.log ∧
        completions fd top.eventType l =
          [(if e.ready top.eventType then .ok else .timeout, r.handler)]) ↔
      if e.ready top.eventType then e.revents &&& dequeueMask top.eventType ≠ 0
        else timerTaken s o) := by
  have hp : Inv [] (s.polled o) := h.pollReturns _ _
  have hDp : DeadlinesOk (s.polled o) := hD
  obtain ⟨fd, e, hfd, he, hefd, htest⟩ :=
    hp.topReady (show (s.polled o).timed[0]? = some top from htop)
  obtain ⟨d, hd, -⟩ := h.linked 0 top htop
  have hr : s.view fd top.eventType =
      some (d.pendingWith (entryOf s.timed top.ioOpData top.eventType)) := by
    rw [view_of_lookup (show lookup s.asyncHandlers fd = some top.ioOpData from hfd), hd]
    rfl
  refine ⟨fd, _, e, hfd, hr, he, hefd, htest, ?_⟩
  have hiter := hp.afterPoll_top_iff hbeh hpoll htop hfd hr he hefd htest
  cases o with
  | failed => exact absurd hreturns id
  | interrupted after revents =>
      simp only [IterationRemovals, hnext] at hrem
      simp only [pollAndServe_interrupted, hnext]
      exact hiter _ _ (hrem.clear hp hDp hbeh)
  | ready after revents =>
      simp only [IterationRemovals, hnext] at hrem
      simp only [pollAndServe_ready, hnext]
      exact hiter _ _ (hrem.clear hp hDp hbeh)
  | expired late =>
      -- nothing is reported, and the timer is dealt with in any case
      have hready : e.ready top.eventType = false := by
        simp [PollFd.ready, setRevents_nil he]
      obtain ⟨fd', r', s', hfd', hr', hrun, ht⟩ :=
        hp.timeout_quiet hbeh (s.polled (.expired late)).clock htop (hrem hnext)
      obtain rfl : fd = fd' := hp.lookup_inj hfd hfd'
      obtain rfl := Option.some.inj (hr.symm.trans hr')
      obtain ⟨l, hl, hc⟩ := ht.log
      rw [hready]
      refine iff_of_true ⟨0, s', l, ?_, hl, ?_⟩ trivial
      · rw [pollAndServe_expired beh 0 late hreturns, hnext, timeoutFirst, if_pos rfl, hrun]
      · rw [hc, if_pos ⟨rfl, rfl⟩]
        rfl

end

/-- The event of fd 5 is timed out after 7 milliseconds, while fd 6 is ready. -/
theorem top_event_completed_iff_timeout :
    ∃ s : Svc RbMem, Inv [] s ∧ DeadlinesOk s ∧
      ∃ fd r fuel s' l, s.view fd .read = some r ∧
        pollAndServe (fun _ _ => .ret) fuel s (.ready 7 [0, pollin]) = some s' ∧
        s'.log = l ++ s.log ∧ completions fd .read l = [(.timeout, r.handler)] := by
  obtain ⟨s, fds, hs, hsched⟩ := schedAll_new [timedReadCall 5, readCall 6] (by decide)
  have hobs : (schedAll (newService 0 (fun _ => 0) fun _ => .ok) [timedReadCall 5, readCall 6]).any
      (fun s =>
        let p := s.started.polled (.ready 7 [0, pollin])
        decide (s.timed[0]?.map (fun x => (x.eventType, x.deadline)) = some (.read, 7) ∧
          (nextDeadline s.started).2 = true ∧ (∀ e ∈ s.timed, 0 ≤ e.deadline) ∧
          s.clock = 0 ∧ (∀ e ∈ p.pollfds.data, e.revents &&& ~~~ (e.events ||| pollerr) = 0) ∧
          timeoutRemovalOk p = true ∧ isTopEventReady p = some false ∧
          (serveTimer (fun _ _ => .ret) p true s.started.nextDelay 7).map (fun s₁ =>
            ((dispatchLoop (fun _ _ => .ret) p.clock 3 s₁ 0).isSome,
              removalsOk (fun _ _ => .ret) p.clock 3 s₁ 0)) = some (true, true))) = true := by
    decide
  rw [hs, Option.any_some, decide_eq_true_eq] at hobs
  obtain ⟨htop, hnext, hdead, hclock, hbits, hout, htest, hserve⟩ := hobs
  obtain ⟨top, htop, heq⟩ := Option.map_eq_some_iff.mp htop
  obtain ⟨hwt, hdl⟩ := Prod.mk.inj heq
  have hD : DeadlinesOk s.started := deadlinesOk_of_timed hdead
  have hrem : IterationRemovals (fun _ _ => .ret) s.started (.ready 7 [0, pollin]) := by
    refine ⟨fun _ _ => hout, fun s₁ hs₁ => ?_⟩
    rw [hnext] at hs₁
    have hs₁ : serveTimer (fun _ _ => .ret) (s.started.polled (.ready 7 [0, pollin])) true
      s.started.nextDelay 7 = some s₁ := hs₁
    rw [hs₁, Option.map_some, Option.some.injEq, Prod.mk.injEq] at hserve
    exact eachEntry_of_ends hserve.1 hserve.2
  have htaken := timerTaken_of_reached hD hsched.started htop hnext
    (show top.deadline ≤ (s.started.polled (.ready 7 [0, pollin])).clock by
      simp only [Svc.polled, pollReturns, Svc.started, PollOutcome.elapsed, hclock, hdl]
      decide) (by simp [Svc.started, hclock, hdl]) (by simp [PollOutcome.elapsed])
    (by simp [PollOutcome.elapsed])
  obtain ⟨fd, r, e, -, hr, -, -, hready, hiff⟩ :=
    top_event_completed_iff hsched.started hD htop hnext
    (show PollOutcome.succeeds s.started (.ready 7 [0, pollin]) from trivial)
    hbits (fun _ _ => rfl) hrem
  obtain hfalse : e.ready top.eventType = false := by
    rw [htest] at hready
    exact (Option.some.inj hready).symm
  rw [hfalse, hwt] at hiff
  obtain ⟨fuel, s', l, hrun, hl, hc⟩ := hiff.mpr htaken
  exact ⟨s.started, hsched.started, hD, fd, r, fuel, s', l, hwt ▸ hr, hrun, hl, hc⟩

/-- **An error withholds a timeout**: a read of fd 5 has a timeout of 7 milliseconds, after
which `poll` reports `POLLERR` for it. `is_top_event_ready` takes this for a ready read, so
that it is not timed out, and the dispatcher does not, so that it is not completed. -/
theorem top_event_withheld :
    ¬ ∀ (s : Svc RbMem) (beh : Behaviour RbMem) (o : PollOutcome) (top : AsyncHeapEntry) (fd : ℤ),
      Inv [] s → s.status = .running → DeadlinesOk s → s.timed[0]? = some top →
      (nextDeadline s).2 = true → lookup s.asyncHandlers fd = some top.ioOpData →
      o.succeeds s → top.deadline ≤ (s.polled o).clock →
      (∀ e ∈ (s.polled o).pollfds.data, e.revents &&& ~~~ e.events = 0) → Quieting beh →
      ∃ fuel s' l, pollAndServe beh fuel s o = some s' ∧ s'.log = l ++ s.log ∧
        (completions fd top.eventType l).length = 1 := by
  intro h
  obtain ⟨s, fds, hs, hsched⟩ := schedAll_new [timedReadCall 5] (by decide)
  have hobs : (schedAll (newService 0 (fun _ => 0) fun _ => .ok) [timedReadCall 5]).any (fun s =>
      let p := s.started.polled (.ready 7 [pollerr])
      decide (s.timed[0]?.map (fun x => (x.ioOpData, x.eventType, x.deadline)) =
          some (2, .read, 7) ∧
        (nextDeadline s.started).2 = true ∧ lookup s.asyncHandlers 5 = some 2 ∧
        (∀ e ∈ s.timed, 0 ≤ e.deadline) ∧ s.clock = 0 ∧
        (∀ e ∈ p.pollfds.data, e.revents &&& ~~~ e.events = 0) ∧
        timerDue p true s.started.nextDelay 7 = some false ∧
        (dispatchLoop (fun _ _ => .ret) p.clock 2 p 0).map (fun s' =>
          (completions 5 .read s'.log).length) = some 0)) = true := by decide
  rw [hs, Option.any_some, decide_eq_true_eq] at hobs
  obtain ⟨htop, hnext, hfd, hdead, hclock, hbits, hdue, hrun⟩ := hobs
  obtain ⟨top, htop, heq⟩ := Option.map_eq_some_iff.mp htop
  simp only [Prod.mk.injEq] at heq
  obtain ⟨ha, hwt, hdl⟩ := heq
  obtain ⟨s₁, hrun₁, hnone⟩ := Option.map_eq_some_iff.mp hrun
  have hD : DeadlinesOk s.started := deadlinesOk_of_timed hdead
  obtain ⟨fuel, s', l, hrun', hl, hone⟩ := h s.started (fun _ _ => .ret) (.ready 7 [pollerr]) top 5
    hsched.started rfl hD htop hnext (by rw [ha]; exact hfd) trivial
    (by simp only [Svc.polled, pollReturns, Svc.started, PollOutcome.elapsed, hclock, hdl]; decide)
    hbits fun _ _ => rfl
  -- the timer is not dealt with, and the pass completes nothing
  have hserve : serveTimer (fun _ _ => .ret) (s.started.polled (.ready 7 [pollerr])) true
      s.started.nextDelay 7 = some (s.started.polled (.ready 7 [pollerr])) := by
    simp [serveTimer, hdue]
  rw [pollAndServe_ready, hnext, afterPoll_eq] at hrun'
  simp only [Nat.cast_ofNat, hserve, Option.bind_some] at hrun'
  obtain rfl := dispatchLoop_unique hrun₁ hrun'
  rw [hl, completions_append, List.length_append] at hnone
  rw [hwt] at hone
  omega

end IoEngine
