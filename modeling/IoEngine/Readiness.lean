import IoEngine.Served

/-!
# Readiness

Which handlers a pass of the dispatcher calls, for what `poll` may report. The tree is read
as a finite map here, so that nothing depends on its shape.

## Main results

* `dispatch_completes_due`: for requested bits other than `POLLERR`, and for invalid fds, a
  pass **completes exactly the events that are due**, removes exactly the fds that are left
  without an event, and leaves the others in place, as long as no handler that it calls sets
  a negative deadline.
* `dispatch_negative_deadline`: a handler that re-arms its event with a negative timeout
  makes a pass follow a node that has been freed.
-/

open BinHeap

namespace IoEngine

open FdTree Svc LawfulFdTree

/-! ### What is reported is pending -/

section

variable {τ π : Type} [FdTree τ π] [LawfulFdTree τ π] {s : Svc τ}

/-- The requested bits of an entry. -/
theorem Inv.events_eq {V : List ℤ} (h : Inv V s) {e : PollFd} (he : e ∈ s.pollfds.data) :
    e.events = requested fun wt => (s.view e.fd wt).isSome := by
  obtain ⟨i, hi⟩ := List.mem_iff_getElem?.mp he
  obtain ⟨-, -, -, -, -, -, hreq, -⟩ := h.entry_at hi
  exact hreq

/-- A reported event is pending, if its bits can be reported only when they are requested. -/
theorem Inv.pending_of_reported {V : List ℤ} (h : Inv V s) {e : PollFd} (he : e ∈ s.pollfds.data)
    {extra : PollMask} (hpoll : e.revents &&& ~~~ (e.events ||| extra) = 0) {wt : WaitType}
    (hextra : extra &&& dequeueMask wt = 0) (hwt : wt ∈ e.reported) :
    (s.view e.fd wt).isSome = true := by
  by_contra hno
  refine (mem_reported.mp hwt).2 (and_eq_zero_of_subset hpoll ?_)
  have hreq : e.events &&& dequeueMask wt = 0 := by
    rw [h.events_eq he]
    exact requested_and_dequeueMask (by simpa using hno)
  rw [BitVec.and_comm, BitVec.and_or_distrib_left, BitVec.and_comm, hreq, BitVec.and_comm, hextra]
  rfl

end

/-- The extractions of a finite map need no repair. -/
theorem removalsOk_fdMap (beh : Behaviour FdMap) (now : ℤ) (fuel : ℕ) (s : Svc FdMap) (i : ℕ) :
    removalsOk beh now fuel s i = true := by
  refine eachEntry_of_forall (fun s i => ?_) beh now fuel s i
  simp only [removalOk, Option.all_eq_true]
  simp [extractOk]

/-! ### What a pass completes -/

/-- The code with which an event of an entry is to be completed, if it is. -/
def PollFd.outcome (e : PollFd) (wt : WaitType) : Option IoErrcode :=
  if e.revents &&& pollnval ≠ 0 then some .invarg
  else if e.revents &&& dequeueMask wt ≠ 0 then some .ok
  else none

/-- An event that is due is completed with the code of its entry. -/
theorem PollFd.outcome_of_due {e : PollFd} {wt : WaitType} (h : e.due wt = true) :
    e.outcome wt = some e.code := by
  unfold PollFd.outcome PollFd.code
  split
  · rfl
  next hn =>
    have hr := (mem_reported.mp ((PollFd.due_iff_reported (by simpa using hn)).mp h)).2
    rw [if_pos hr]

/-- An event that is not due is not completed. -/
theorem PollFd.outcome_of_not_due {e : PollFd} {wt : WaitType} (h : e.due wt = false) :
    e.outcome wt = none := by
  simp only [PollFd.due, Bool.or_eq_false_iff, decide_eq_false_iff_not] at h
  unfold PollFd.outcome
  rw [if_neg h.1, if_neg h.2]

/-- **What a pass completes.** In a consistent service without negative deadlines, let `poll`
report requested bits other than `POLLERR`, and `POLLNVAL`, let the handlers at most schedule
events of their own fds, and let none that is called set a negative deadline. Then a pass
ends. It completes every event that was pending and is ready or belongs to an invalid fd,
once and with the handler it had, and no other one of those that were pending, which stay as
they are. The events that are pending afterwards are those that this and the handlers' calls
leave pending; an fd without one has no node and no `pollfd`, and the others have the node
that they had. -/
theorem dispatch_completes_due {s : Svc FdMap} (h : Inv [] s) (hD : DeadlinesOk s)
    (hpoll : ∀ e ∈ s.pollfds.data, e.revents &&& ~~~ (e.events &&& ~~~ pollerr ||| pollnval) = 0)
    {beh : Behaviour FdMap} (hbeh : KeepsToFd beh) (now : ℤ)
    (hT : ∀ fuel, passTimed beh now fuel s 0 = true) :
    ∃ fuel s' l, dispatchReadyEvents beh fuel s now = some s' ∧ s'.log = l ++ s.log ∧
      s'.status = s.status ∧ Inv [] s' ∧
      (∀ e ∈ s.pollfds.data, ∀ wt r, s.view e.fd wt = some r →
        completions e.fd wt l = (e.outcome wt).toList.map (fun code => (code, r.handler)) ∧
        (e.outcome wt = none → s'.view e.fd wt = some r)) ∧
      Follows s s' l ∧
      (∀ fd, (∀ wt, s'.view fd wt = none) →
        lookup s'.asyncHandlers fd = none ∧ ∀ e ∈ s'.pollfds.data, e.fd ≠ fd) ∧
      ∀ fd wt, (s'.view fd wt).isSome = true →
        lookup s'.asyncHandlers fd = lookup s.asyncHandlers fd ∧
        ∃ e ∈ s'.pollfds.data, e.fd = fd := by
  have hsub : ∀ e ∈ s.pollfds.data, e.revents &&& ~~~ (e.events ||| pollnval) = 0 := by
    intro e he
    refine and_eq_zero_of_subset (hpoll e he) ?_
    ext i hi
    simp only [BitVec.getElem_and, BitVec.getElem_or, BitVec.getElem_not]
    cases e.events[i] <;> cases pollnval[i] <;> simp
  obtain ⟨fuel, s', hrun, hs⟩ := h.servePass hbeh now
    (fun fuel => h.passFinding_timed hbeh hD (hT fuel) (removalsOk_fdMap beh now fuel s 0))
    (fun e he wt hwt => h.pending_of_reported he (hsub e he) (by cases wt <;> decide) hwt)
  obtain ⟨l, hlog, -, hfollow, -, hserved⟩ := hs.log
  refine ⟨fuel, s', l, hrun, hlog, hs.status, hs.inv, fun e he wt r hr => ?_, hfollow,
    fun fd hno => ?_, fun fd wt hp => ?_⟩
  · cases hdue : e.due wt with
    | true =>
        have hout := PollFd.outcome_of_due hdue
        exact ⟨by rw [(hserved e he wt).due r hr hdue, hout]; rfl, by simp [hout]⟩
    | false =>
        have hout := PollFd.outcome_of_not_due hdue
        obtain ⟨hnil, hv⟩ := (hserved e he wt).left r hr hdue
        exact ⟨by rw [hnil, hout]; rfl, fun _ => hv⟩
  · have habs : lookup s'.asyncHandlers fd = none := by
      refine Option.not_isSome_iff_eq_none.mp fun hc => ?_
      obtain ⟨wt, hwt⟩ := (hs.inv.present_iff (by simp)).mp hc
      rw [hno wt] at hwt
      cases hwt
    refine ⟨habs, fun e he hfd => ?_⟩
    have := hs.inv.mem_pollfds_iff.mp ⟨e, he, hfd⟩
    rw [habs] at this
    cases this
  · have hpres := (hs.inv.present_iff (show fd ∉ [] by simp)).mpr ⟨wt, hp⟩
    refine ⟨?_, hs.inv.mem_pollfds_iff.mpr hpres⟩
    rcases hs.node fd with hc | hc
    · rw [hc] at hpres
      cases hpres
    · exact hc

/-! ### A handler that re-arms its event -/

/-- A pass gets to an entry that it does not return from, within some entries. -/
def dispatchFails {τ π : Type} [FdTree τ π] (beh : Behaviour τ) (now : ℤ) : ℕ → Svc τ → ℕ → Bool
  | 0, _, _ => false
  | k + 1, s, i => decide (i < s.pollfds.data.length) &&
      match dispatchEntry beh s i now with
      | none => true
      | some (next, s) => dispatchFails beh now k s (if next then i + 1 else i)

/-- A pass that gets to such an entry does not return. -/
theorem dispatchLoop_of_fails {τ π : Type} [FdTree τ π] {beh : Behaviour τ} {now : ℤ} {k : ℕ}
    {s : Svc τ} {i : ℕ} (h : dispatchFails beh now k s i = true) (fuel : ℕ) :
    dispatchLoop beh now fuel s i = none := by
  induction k generalizing s i fuel with
  | zero => cases h
  | succ k ih =>
      cases fuel with
      | zero => rfl
      | succ fuel =>
          simp only [dispatchFails, Bool.and_eq_true, decide_eq_true_eq] at h
          rw [dispatchLoop, if_pos h.1]
          cases hrun : dispatchEntry beh s i now with
          | none => rfl
          | some r =>
              rw [hrun] at h
              exact ih h.2 fuel

/-- A running service after a `poll` with the given `revents`. -/
def Svc.reporting {τ : Type} (s : Svc τ) (revents : List PollMask) : Svc τ :=
  { s with
    status := .running
    pollfds := { s.pollfds with data := setRevents s.pollfds.data revents } }

/-- What `poll` reports keeps the service consistent. -/
theorem Inv.reporting {τ π : Type} [FdTree τ π] [LawfulFdTree τ π] {V : List ℤ} {s : Svc τ}
    (h : Inv V s) (revents : List PollMask) : Inv V (s.reporting revents) :=
  (h.setReports (P := { s.pollfds with data := setRevents s.pollfds.data revents })
    (map_setRevents ..)).frame rfl rfl rfl rfl le_rfl

/-- A read, with a timeout if one is given. -/
def timedRead (fd : ℤ) (milliseconds : Option Int32) : SchedCall :=
  ⟨⟨fd, some .read⟩, ⟨some 0, 0⟩, none, milliseconds.map fun _ => 0, 0,
    fun _ => milliseconds.getD 0⟩

/-- Handlers of which the one for fd 1 schedules its read again, with a timeout. -/
def rearms {τ : Type} (milliseconds : Int32) : Behaviour τ := fun _ s =>
  match s.log with
  | .invoked (.event fd _ _ _) _ _ _ _ :: _ =>
      if fd = 1 then .user (fun _ => milliseconds) (fun _ => .ok)
        (.call (.schedTimeout ⟨fd, some .read⟩ ⟨some 0, 0⟩ none 0) .ret .ret)
      else .ret
  | _ => .ret

/-- A handler that waits again for its event keeps to its descriptor. -/
theorem keepsToFd_rearms {τ : Type} (milliseconds : Int32) :
    KeepsToFd (rearms milliseconds : Behaviour τ) := by
  rintro hnd s fd ⟨wt, code, now, time, ints, errs, log, hlog⟩
  simp only [rearms, hlog]
  split <;> simp [Script.own, ApiCall.schedules]

/-- The reads of some fds in a new service at the time 4. -/
def readsAtFour (cs : List SchedCall) : Option (Svc FdMap) :=
  schedAll (iosvcCreate ⟨fun _ => true, 0⟩ (4 : ℕ) (fun _ => 0) fun _ => .ok) cs

/-- The service of the example is one that the pass is for. -/
theorem eventInv_readsAtFour {cs : List SchedCall} {s : Svc FdMap} (h : readsAtFour cs = some s)
    (hms : ∀ c ∈ cs, ∀ ms, c.milliseconds = some ms → 0 ≤ (c.ints ms).toInt) : EventInv s :=
  eventInv_of_steps (eventSteps_of_schedAll hms h)

/-- Two fds are ready; the handler of the first one schedules its read again, with a timeout
of 5 milliseconds. -/
theorem dispatch_completes_due_rearmed :
    ∃ s : Svc FdMap, Inv [] s ∧ s.status = .running ∧ DeadlinesOk s ∧
      s.pollfds.data.map (fun e => (e.fd, e.revents)) = [(1, pollin), (2, pollin)] ∧
      (∀ fuel, passTimed (rearms 5) 4 fuel s 0 = true) ∧
      ∃ fuel s' l, dispatchReadyEvents (rearms 5) fuel s 4 = some s' ∧ s'.log = l ++ s.log ∧
        ∀ e ∈ s.pollfds.data, ∀ r, s.view e.fd .read = some r →
          completions e.fd .read l = [(.ok, r.handler)] := by
  have hobs : (readsAtFour [timedRead 1 none, timedRead 2 (some 10)]).map (fun s =>
      let s := s.reporting [pollin, pollin]
      (s.pollfds.data.all fun e => e.revents &&& ~~~ (e.events &&& ~~~ pollerr ||| pollnval) = 0,
        s.pollfds.data.map (fun e => (e.fd, e.revents)),
        (dispatchLoop (rearms 5) 4 3 s 0).isSome, passTimed (rearms 5) 4 3 s 0)) =
      some (true, [(1, pollin), (2, pollin)], true, true) := by decide
  obtain ⟨s, hs, hv⟩ := Option.map_eq_some_iff.mp hobs
  simp only [Prod.mk.injEq] at hv
  obtain ⟨hbits, hpolls, hends, htimed⟩ := hv
  have hinv := eventInv_readsAtFour hs (by simp [timedRead])
  have hT := eachEntry_of_ends hends htimed
  refine ⟨s.reporting [pollin, pollin], hinv.inv.reporting _, rfl, hinv.deadlines, hpolls, hT, ?_⟩
  obtain ⟨fuel, s', l, hrun, hlog, -, -, hserved, -⟩ := dispatch_completes_due
    (hinv.inv.reporting [pollin, pollin]) hinv.deadlines (by simpa using hbits)
    (keepsToFd_rearms 5) 4 hT
  refine ⟨fuel, s', l, hrun, hlog, fun e he r hr => ?_⟩
  have hrev : e.revents = pollin := by
    have hm := List.mem_map_of_mem (f := fun e : PollFd => (e.fd, e.revents)) he
    rw [hpolls] at hm
    simp only [List.mem_cons, Prod.mk.injEq, List.not_mem_nil, or_false] at hm
    rcases hm with hm | hm
    · exact hm.2
    · exact hm.2
  have hout : e.outcome .read = some .ok := by
    unfold PollFd.outcome
    rw [hrev]
    decide
  rw [(hserved e he .read r hr).1, hout]
  rfl

/-- **A negative timeout set by a handler**: three fds are ready at the time 4, two of them
with timeouts of 10 and 20 milliseconds, and the handler of the first one schedules its read
again with a timeout of `-5`, which sets the deadline `-1`. The next timed event is then not
removed from the heap, but the new one; its node is freed, and the pass follows the entry
that is left to it. -/
theorem dispatch_negative_deadline :
    ¬ ∀ (s : Svc FdMap) (beh : Behaviour FdMap) (now : ℤ), Inv [] s → s.status = .running →
      DeadlinesOk s →
      (∀ e ∈ s.pollfds.data, e.revents &&& ~~~ (e.events &&& ~~~ pollerr ||| pollnval) = 0) →
      KeepsToFd beh → ∃ fuel s', dispatchReadyEvents beh fuel s now = some s' := by
  intro h
  have hobs : (readsAtFour [timedRead 1 none, timedRead 2 (some 10), timedRead 3 (some 20)]).map
      (fun s =>
        let s := s.reporting [pollin, pollin, pollin]
        (s.pollfds.data.all fun e => e.revents &&& ~~~ (e.events &&& ~~~ pollerr ||| pollnval) = 0,
          dispatchFails (rearms (-5)) 4 3 s 0)) = some (true, true) := by decide
  obtain ⟨s, hs, hv⟩ := Option.map_eq_some_iff.mp hobs
  obtain ⟨hbits, hfails⟩ := Prod.mk.inj hv
  have hinv := eventInv_readsAtFour hs (by simp [timedRead])
  obtain ⟨fuel, s', hrun⟩ := h (s.reporting [pollin, pollin, pollin]) (rearms (-5)) 4
    (hinv.inv.reporting _) rfl hinv.deadlines (by simpa using hbits) (keepsToFd_rearms _)
  rw [dispatchReadyEvents, dispatchLoop_of_fails hfails] at hrun
  cases hrun

end IoEngine
