import IoEngine.AgendaSteps
import IoEngine.Iteration
import IoEngine.PostRuns

/-!
# Services over Their Whole Lives

A service is created, used by public calls, run and run again. The steps of its life
(`ServiceStep`) are public calls and the rounds of `iosvc_run`: a posted handler, an iteration
from the call of `poll` on, and the two ends of the loop. As for the steps of `LoopSteps`, each
comes with the condition under which it reaches no defect.

The state refines the agenda that the log describes (`ServiceInv`). What a maintainer wants to
know of a scheduler is then read off the agenda: nothing is lost, nothing is done twice, posts
are done in their order, and nothing is done early.

## Main results

* `iosvcRun_serviceSteps`: **`iosvc_run` consists of these steps**, whatever the conditions.
* `service_refines_agenda`: in every state reached by steps that meet their conditions, **the log
  is a run of the agenda** from an empty one to what is pending. The results below are about the
  same states.
* `service_accounts`: what was accepted is what was called and what is pending; when the status
  is `DONE` **nothing is pending**.
* `service_punctual`: **no delayed handler is called early**, they are called in the order of
  their deadlines, and no event is timed out before its deadline.
-/

namespace IoEngine

open FdTree Svc LawfulFdTree

/-! ### Conditions -/

section

variable (beh : Behaviour RbMem)

/-- Calling the first timer reaches no defect. -/
def timerOk (s : Svc RbMem) (isEvent : Bool) : Bool :=
  if isEvent then timeoutOk beh s s.clock else delayOk beh s

/-- After a `poll` that did not return 0, neither the first timer nor the pass reaches a defect,
and the pass finds what it was told about. -/
structure AfterPollOk (s : Svc RbMem) (isEvent : Bool) (delay elapsed : ℤ) : Prop where
  timer : timerDue s isEvent delay elapsed = some true → timerOk beh s isEvent = true
  pass : ∀ s₁, serveTimer beh s isEvent delay elapsed = some s₁ →
    ∀ fuel, passFinding beh s.clock fuel s₁ 0 = .good

/-- **An iteration reaches no defect.** -/
def IterationOk (s : Svc RbMem) (o : PollOutcome) : Prop :=
  match o with
  | .expired _ => timerOk beh (s.polled o) (nextDeadline s).2 = true
  | .failed _ => True
  | _ => AfterPollOk beh (s.polled o) (nextDeadline s).2 s.nextDelay (o.elapsed s.nextDelay)

/-- **One step in the life of a service, and its condition.** -/
inductive ServiceStep (s : Svc RbMem) : Prop → Svc RbMem → Prop
  | call {s' : Svc RbMem} (c : ApiCall) (code : IoErrcode) (hout : ¬ s.Live)
      (h : apiCall (fun _ => none) s c = some (code, s')) :
      ServiceStep s (callOk (fun _ => false) (fun _ => none) s c = true) s'
  | user (dt : ℕ) (ints : Addr → Int32) (errs : Addr → IoErrcode) :
      ServiceStep s True { s with clock := s.clock + dt, ints := ints, errs := errs }
  | start (h : s.status = .ready) : ServiceStep s True { s with status := .running }
  /-- a round of `run_sync_handlers` -/
  | post {hnd : IoHandler} {s₁ : Svc RbMem} (hq : s.syncHandlers.elems.head? = some hnd)
      (h : callHandler beh .post hnd s = some s₁) :
      ServiceStep s (s.Live ∧ handlerOk beh .post hnd s = true)
        { s₁ with syncHandlers := s₁.syncHandlers.pop }
  /-- an iteration of `iosvc_run` from the call of `poll` on -/
  | iterate {s' : Svc RbMem} (fuel : ℕ) (o : PollOutcome)
      (h : pollAndServe beh fuel s o = some s') :
      ServiceStep s (s.Live ∧ IterationOk beh s o) s'
  /-- the loop is left by a stop -/
  | stop {s' : Svc RbMem} (hst : s.status = .stopping) (hq : s.syncHandlers.elems = [])
      (h : iosvcPrepStop beh s = some s') : ServiceStep s True { s' with status := .done }
  /-- the loop is left because there is nothing to wait for -/
  | finish (h : s.pollfds.data = [] ∧ s.timedHandlersHeap.data = [] ∧ s.syncHandlers.elems = []) :
      ServiceStep s True { s with status := .done }

/-- Any number of steps. -/
abbrev ServiceSteps : Svc RbMem → Svc RbMem → Prop :=
  Relation.ReflTransGen fun s s' => ∃ P, ServiceStep beh s P s'

/-- Any number of steps that meet their conditions. -/
abbrev SoundService : Svc RbMem → Svc RbMem → Prop :=
  Relation.ReflTransGen fun s s' => ∃ P, ServiceStep beh s P s' ∧ P

end

/-! ### A run consists of steps -/

section

variable {beh : Behaviour RbMem} {s s' : Svc RbMem}

/-- A step of the service is a run of steps. -/
theorem ServiceStep.steps {P : Prop} (h : ServiceStep beh s P s') : ServiceSteps beh s s' :=
  .single ⟨P, h⟩

/-- A part of a run is a step. -/
theorem RunPart.serviceSteps (h : RunPart beh s s') : ServiceSteps beh s s' := by
  cases h with
  | start h => exact (ServiceStep.start h).steps
  | post hq h => exact (ServiceStep.post hq h).steps
  | iterate fuel o h => exact (ServiceStep.iterate fuel o h).steps
  | stop hst hq h => exact (ServiceStep.stop hst hq h).steps
  | finish h => exact (ServiceStep.finish h).steps

/-- **`iosvc_run` consists of steps.** -/
theorem iosvcRun_serviceSteps {fuel : ℕ} {outcomes : List PollOutcome} {code : IoErrcode}
    (h : iosvcRun beh fuel outcomes s = some (code, s')) : ServiceSteps beh s s' :=
  (iosvcRun_parts h).lift' id fun _ _ => RunPart.serviceSteps

end

/-! ### Timers that are due -/

section

variable {beh : Behaviour RbMem} {s s' : Svc RbMem}

/-- The next deadline, when it is a delayed handler's. -/
theorem nextDeadline_delay {top : DelayHeapEntry} (htop : s.timedHandlersHeap.data[0]? = some top)
    (hnext : (nextDeadline s).2 = false) : (nextDeadline s).1 = top.deadline := by
  unfold nextDeadline at hnext ⊢
  simp only [htop] at hnext ⊢
  cases he : s.timed[0]? with
  | none => rfl
  | some ent =>
      simp only [he] at hnext ⊢
      split at hnext
      next => cases hnext
      next hc => rw [if_neg hc]

/-- Deadlines of timers are near. -/
theorem LoopInv.next_near (h : LoopInv s) (htime : OnTime s) (hdelay : s.nextDelay ≠ -1) :
    (nextDeadline s).1 ≤ s.clock + (2 ^ 31 - 1) := by
  cases hnext : (nextDeadline s).2 with
  | true =>
      obtain ⟨top, htop, hd⟩ := exists_event_of_next hnext
      rw [hd]
      exact h.log.deadline_le h.inv (List.mem_of_getElem? htop)
  | false =>
      obtain ⟨top, htop⟩ := delayed_of_nextDelay hnext hdelay
      rw [nextDeadline_delay htop hnext]
      exact htime.near top (List.mem_of_getElem? htop)

/-- **When the delay given to `poll` is over, the first timer is due.** -/
theorem LoopInv.next_due (h : LoopInv s) (htime : OnTime s) (hdelay : s.nextDelay ≠ -1)
    {elapsed : ℤ} (hover : s.nextDelay ≤ elapsed) : (nextDeadline s).1 ≤ s.clock + elapsed := by
  have hreached := (reached_of_pollDelay (h.next_near htime hdelay) hdelay).2
  have hover' : pollDelay (nextDeadline s).1 s.clock ≤ elapsed := hover
  omega

/-! ### An iteration -/

/-- **The first timer** is served when its deadline has come. -/
theorem LoopInv.timer_served (h : LoopInv s) (htime : OnTime s) (hlive : s.Live) {isEvent : Bool}
    (hnext : (nextDeadline s).2 = isEvent) (hdue : (nextDeadline s).1 ≤ s.clock)
    (hok : timerOk beh s isEvent = true) (hrun : timeoutFirst beh s isEvent s.clock = some s') :
    Served s s' := by
  cases isEvent with
  | true =>
      obtain ⟨top, htop, hd⟩ := exists_event_of_next hnext
      exact h.timeout_served htime hlive htop (hd ▸ hdue) hok hrun
  | false =>
      have hrun' : IoEngine.timeoutDelay beh s = some s' := hrun
      obtain ⟨top, htop, -⟩ := Option.bind_eq_some_iff.mp hrun'
      exact h.delay_served htime hlive htop (nextDeadline_delay htop hnext ▸ hdue) hok hrun'

/-- **What follows a `poll`** that did not return 0. -/
theorem LoopInv.afterPoll_served (h : LoopInv s) (htime : OnTime s) (hlive : s.Live) {fuel : ℕ}
    {after : ℕ} {revents : List PollMask}
    (hok : AfterPollOk beh (pollReturns s after revents) (nextDeadline s).2 s.nextDelay after)
    (hrun : afterPoll beh fuel (pollReturns s after revents) (nextDeadline s).2 s.nextDelay after =
      some s') : Served s s' := by
  have hpoll := h.poll_served htime (Int.natCast_nonneg after) revents
  rw [afterPoll_eq] at hrun
  obtain ⟨s₁, h₁, hpass⟩ := Option.bind_eq_some_iff.mp hrun
  have hgood := hok.pass s₁ h₁
  have htimer : Served s s₁ := by
    obtain ⟨due, hdue, h₁⟩ := Option.bind_eq_some_iff.mp h₁
    cases due with
    | false =>
        obtain rfl := Option.some.inj h₁
        exact hpoll
    | true =>
        obtain ⟨hle, hdelay⟩ := passed_of_timerDue hdue
        exact hpoll.trans (hpoll.loop.timer_served hpoll.time hlive rfl
          (h.next_due htime hdelay (hle.trans (toInt_ofInt_le (Int.natCast_nonneg after))))
          (hok.timer hdue) h₁)
  exact htimer.trans
    (htimer.loop.dispatch_served htimer.time (htimer.live hlive) hgood hpass)

/-- **An iteration of `iosvc_run`** from the call of `poll` on. -/
theorem LoopInv.iterate_served (h : LoopInv s) (htime : OnTime s) (hlive : s.Live) {fuel : ℕ}
    {o : PollOutcome} (hok : IterationOk beh s o) (hrun : pollAndServe beh fuel s o = some s') :
    Served s s' := by
  cases o with
  | expired late =>
      by_cases hpos : 0 ≤ s.nextDelay
      · rw [pollAndServe_expired beh fuel late hpos] at hrun
        have hpoll := h.poll_served htime (Int.add_nonneg hpos (Int.natCast_nonneg late)) []
        exact hpoll.trans (hpoll.loop.timer_served hpoll.time hlive rfl
          (h.next_due htime (by omega) (by omega)) hok hrun)
      · have hneg : s.nextDelay < 0 := by omega
        have hnone : pollAndServe beh fuel s (.expired late) = none := if_pos hneg
        rw [hnone] at hrun
        cases hrun
  | interrupted after revents | ready after revents => exact h.afterPoll_served htime hlive hok hrun
  | failed after =>
      obtain rfl := Option.some.inj hrun
      have hpoll := h.poll_served htime (Int.natCast_nonneg after) []
      refine hpoll.trans ⟨hpoll.loop.frame rfl rfl rfl rfl le_rfl rfl le_rfl,
        hpoll.time.frame rfl le_rfl, fun _ => .inr rfl, [], .of_frame rfl rfl rfl le_rfl
          fun _ _ => rfl⟩

end

/-! ### The invariant -/

/-- **What holds of a service** that was created at time `clock`: it is consistent, its delays are
in order, its log is a run of the agenda from an empty one to its own, and nothing is pending when
its status is `DONE`. -/
structure ServiceInv (clock : ℤ) (s : Svc RbMem) : Prop where
  loop : LoopInv s
  time : OnTime s
  runs : AgendaRuns clock .empty (moves s.log.reverse) s.clock s.agenda
  done : s.status = .done → s.agenda = .empty

section

variable {beh : Behaviour RbMem} {clock : ℤ} {s s' : Svc RbMem}

/-- The run of the agenda goes on as the service does. -/
theorem AgendaRuns.moved {l : List Obs}
    (h : AgendaRuns clock .empty (moves s.log.reverse) s.clock s.agenda) (hm : Moved s s' l) :
    AgendaRuns clock .empty (moves s'.log.reverse) s'.clock s'.agenda := by
  rw [hm.log, List.reverse_append, List.reverse_reverse, moves_append]
  exact h.append hm.runs

/-- What serves the agenda keeps the invariant. -/
theorem ServiceInv.served (h : ServiceInv clock s) (hserved : Served s s') (hlive : s.Live) :
    ServiceInv clock s' := by
  obtain ⟨l, hm⟩ := hserved.moved
  refine ⟨hserved.loop, hserved.time, h.runs.moved hm, fun hdone => ?_⟩
  rcases hserved.live hlive with hst | hst <;> rw [hst] at hdone <;> cases hdone

/-- Scheduling on a service that has run is refused. -/
theorem sched_done {event : IoEvent} {hnd : IoHandler} {status : Ptr} {code : IoErrcode}
    (hst : s.status = .done) (h : iosvcSched s event hnd status = some (code, s')) :
    code ≠ .ok := by
  simp only [iosvcSched, iosvcEnqueue, hst, ne_eq, reduceCtorEq, not_false_eq_true, and_self,
    if_true, bind, Option.bind_some] at h
  rw [← (Prod.mk.inj (Option.some.inj h)).1]
  simp

/-- A service that is done accepts no timed event. -/
theorem schedTimeout_done {event : IoEvent} {hnd : IoHandler} {status : Ptr} {ms : Addr}
    {code : IoErrcode} (hst : s.status = .done)
    (h : iosvcSchedTimeout s event hnd status ms = some (code, s')) : code ≠ .ok := by
  unfold iosvcSchedTimeout at h
  rcases hp : s.timedEventsHeap.emplaceBack s.alloc with ⟨_ | heap, al⟩
  · rw [hp] at h
    rw [← (Prod.mk.inj (Option.some.inj h)).1]
    simp
  · simp only [hp, iosvcEnqueue, hst, ne_eq, reduceCtorEq, not_false_eq_true, and_self, if_true,
      bind, Option.bind_some] at h
    rw [← (Prod.mk.inj (Option.some.inj h)).1]
    simp

/-- A refused call leaves the agenda as it is. -/
theorem Unchanged.agenda (hu : Unchanged s s') : s'.agenda = s.agenda := by
  have hs := hu.same
  have hevents : s'.events = s.events := events_congr fun fd wt => by
    rw [view_frame (by rw [hs]) (by rw [hs]) hu.timed]
  rw [Svc.agenda, hevents, hs]
  rfl

/-- A public call on a service that has run **is refused**, unless it is a reset. -/
theorem Inv.call_done (h : Inv [] s) {c : ApiCall} {code : IoErrcode}
    (hok : callOk (fun _ => false) (fun _ => none) s c = true)
    (hrun : IoEngine.apiCall (fun _ => none) s c = some (code, s')) (hst : s'.status = .done) :
    s.status = .done ∧ s'.agenda = s.agenda := by
  cases c with
  | post hnd =>
      have heq : s' = (iosvcPost s hnd).2 := (congrArg Prod.snd (Option.some.inj hrun)).symm
      rw [heq, post_status] at hst
      refine ⟨hst, ?_⟩
      rw [heq, iosvcPost, if_pos (by simp [hst])]
  | postDelay hnd status ms =>
      obtain ⟨code₁, s₁, hrun₁, hcase⟩ := postDelay_cases s hnd status ms
      obtain ⟨rfl, rfl⟩ := Prod.mk.inj (Option.some.inj (hrun₁.symm.trans hrun))
      rcases hcase with ⟨-, hsame, -⟩ | ⟨-, -, -, hready, hd⟩
      · rw [hsame] at hst ⊢
        exact ⟨hst, rfl⟩
      · rw [hd.same] at hst
        have hdone : s.status = .done := hst
        simp [hdone] at hready
  | sched event hnd status =>
      obtain ⟨code₁, s₁, hrun₁, -, hcase⟩ := h.sched status hok
      obtain ⟨rfl, rfl⟩ := Prod.mk.inj (Option.some.inj (hrun.symm.trans hrun₁))
      obtain ⟨-, hu, -⟩ | ⟨hcode, wt, -, hs⟩ := hcase
      · exact ⟨by rwa [hu.same] at hst, hu.agenda⟩
      · have hdone : s.status = .done := by rwa [hs.same] at hst
        exact absurd hcode (sched_done hdone hrun)
  | schedTimeout event hnd status ms =>
      obtain ⟨code₁, s₁, hrun₁, -, hcase⟩ := h.schedTimeout status ms hok
      obtain ⟨rfl, rfl⟩ := Prod.mk.inj (Option.some.inj (hrun.symm.trans hrun₁))
      obtain ⟨-, hu, -⟩ | ⟨hcode, wt, -, hs⟩ := hcase
      · exact ⟨by rwa [hu.same] at hst, hu.agenda⟩
      · have hdone : s.status = .done := by rwa [hs.same] at hst
        exact absurd hcode (schedTimeout_done hdone hrun)
  | cancel fd wt =>
      obtain rfl := cancel_refused hrun
      exact ⟨hst, rfl⟩
  | stop =>
      have heq : s' = (iosvcStop s).2 := (congrArg Prod.snd (Option.some.inj hrun)).symm
      cases hs : s.status <;> simp_all [iosvcStop]
  | reset =>
      have heq : s' = (iosvcReset s).2 := (congrArg Prod.snd (Option.some.inj hrun)).symm
      cases hs : s.status <;> simp_all [iosvcReset]
  | run =>
      obtain ⟨code', -, hrun⟩ := Option.map_eq_some_iff.mp hrun
      obtain ⟨-, rfl⟩ := Prod.mk.inj hrun
      exact ⟨hst, rfl⟩

/-- **One sound step** keeps the invariant. -/
theorem ServiceInv.step (h : ServiceInv clock s) {P : Prop} (hstep : ServiceStep beh s P s')
    (hP : P) : ServiceInv clock s' := by
  cases hstep with
  | call c code hout hrun =>
      obtain ⟨l, hl⟩ := h.loop.inv.apiCall_worked hP hrun fun _ _ hok _ => by cases hok
      refine ⟨h.loop.call hout hP hrun, hl.onTime h.time, h.runs.moved hl.moved, fun hst => ?_⟩
      obtain ⟨hdone, hsame⟩ := h.loop.inv.call_done hP hrun hst
      rw [hsame, h.done hdone]
  | user dt ints errs =>
      have hclock : s.clock ≤ s.clock + dt := Int.le_add_of_nonneg_right (Int.natCast_nonneg dt)
      have hm : Moved s { s with clock := s.clock + dt, ints := ints, errs := errs } [] :=
        .of_frame rfl rfl rfl hclock fun _ _ => rfl
      exact ⟨h.loop.frame rfl rfl rfl rfl le_rfl rfl hclock, h.time.frame rfl hclock,
        h.runs.moved hm, h.done⟩
  | start hst =>
      have hm : Moved s { s with status := .running } [] :=
        .of_frame rfl rfl rfl le_rfl fun _ _ => rfl
      exact ⟨h.loop.frame rfl rfl rfl rfl le_rfl rfl le_rfl, h.time.frame rfl le_rfl,
        h.runs.moved hm, by simp⟩
  | post hq hrun => exact h.served (h.loop.post_served h.time hP.1 hq hP.2 hrun) hP.1
  | iterate fuel o hrun => exact h.served (h.loop.iterate_served h.time hP.1 hP.2 hrun) hP.1
  | @stop s₁ hst hq hrun =>
      obtain ⟨⟨l, hm⟩, hagenda, hdelays⟩ := Moved.prepStop h.loop hst hrun
      obtain ⟨hinv, hlog⟩ := h.loop.log.prepStop h.loop.inv hst hrun
      have hloop : LoopInv s₁ := ⟨hinv, hlog⟩
      have hm' : Moved s { s₁ with status := .done } l := ⟨hm.log, hm.runs⟩
      refine ⟨hloop.frame rfl rfl rfl rfl le_rfl rfl le_rfl, ⟨?_, ?_⟩, h.runs.moved hm',
        fun _ => ?_⟩
      · show DelaysOrdered s₁.timedHandlersHeap.data
        rw [hdelays]
        intro i x y _ hx
        simp at hx
      · show ∀ e ∈ s₁.timedHandlersHeap.data, _
        simp [hdelays]
      · exact hagenda.trans (by rw [hq]; rfl)
  | finish hexit =>
      obtain ⟨hpoll, hdelays, hq⟩ := hexit
      have hm : Moved s { s with status := .done } [] :=
        .of_frame rfl rfl rfl le_rfl fun _ _ => rfl
      refine ⟨h.loop.frame rfl rfl rfl rfl le_rfl rfl le_rfl, h.time.frame rfl le_rfl,
        h.runs.moved hm, fun _ => ?_⟩
      show s.agenda = .empty
      rw [Svc.agenda, hq, hdelays, h.loop.inv.events_of_nil hpoll]
      rfl

/-- **Sound steps** from a new service keep the invariant. -/
theorem serviceInv_of_steps {alloc : Alloc} {ints : Addr → Int32} {errs : Addr → IoErrcode}
    (h : SoundService beh (iosvcCreate alloc clock ints errs) s) : ServiceInv clock s := by
  have hnew : LoopInv (iosvcCreate alloc clock ints errs : Svc RbMem) :=
    loopInv_of_steps (.refl : SoundSteps beh _ _)
  induction h with
  | refl =>
      have hempty : (iosvcCreate alloc clock ints errs : Svc RbMem).agenda = .empty := by
        have hevents : (iosvcCreate alloc clock ints errs : Svc RbMem).events = fun _ => none :=
          hnew.inv.events_of_nil rfl
        rw [Svc.agenda, hevents]
        rfl
      refine ⟨hnew, ⟨?_, ?_⟩, ?_, fun _ => hempty⟩
      · intro i x y _ hx
        simp [iosvcCreate, DynArray.init] at hx
      · simp [iosvcCreate, DynArray.init]
      · rw [hempty]
        exact .nil le_rfl
  | tail _ hstep ih =>
      obtain ⟨P, hstep, hP⟩ := hstep
      exact ih.step hstep hP

end

/-! ### What the log tells -/

namespace Obs

/-- A delayed handler that was called, as the entry with this handler. -/
def calledDelay : Obs → Option DelayHeapEntry
  | .invoked (.delay ent _) hnd _ _ _ => some { ent with handler := hnd }
  | _ => none

/-- The handler that was accepted with an event of the fd and the wait type. -/
def acceptedEvent (fd : ℤ) (wt : WaitType) : Obs → Option IoHandler
  | .accepted (.event fd' wt' hnd _) _ => if fd' = fd ∧ wt' = wt then some hnd else none
  | _ => none

/-- The handler that was called for an event of the fd and the wait type. -/
def invokedEvent (fd : ℤ) (wt : WaitType) : Obs → Option IoHandler
  | .invoked (.event fd' wt' _ _) hnd _ _ _ => if fd' = fd ∧ wt' = wt then some hnd else none
  | _ => none

end Obs

section

variable (o : Obs)

/-- An entry is an accepted call or a handler that starts, or it is no move. -/
theorem Obs.move_cases {P : Obs → Option SvcMove → Prop}
    (hpost : ∀ hnd t, P (.accepted (.post hnd) t) (some (t, .post hnd)))
    (hdelay : ∀ ent t, P (.accepted (.delay ent) t) (some (t, .delay ent)))
    (hevent : ∀ fd wt hnd timer t, P (.accepted (.event fd wt hnd timer) t)
      (some (t, .arm (fd, wt) hnd (timer.map fun x => t + x.2))))
    (hrunPost : ∀ hnd t ints errs, P (.invoked .post hnd t ints errs) (some (t, .runPost hnd)))
    (hrunDelay : ∀ ent code hnd t ints errs, P (.invoked (.delay ent code) hnd t ints errs)
      (some (t, if code = .ok then .runDelay { ent with handler := hnd }
        else .dropDelay { ent with handler := hnd })))
    (hfire : ∀ fd wt code now hnd t ints errs, P (.invoked (.event fd wt code now) hnd t ints errs)
      (some (t, if code = .timeout then .expire (fd, wt) hnd else .fire (fd, wt) hnd)))
    (hdequeued : ∀ fd wt sound, P (.dequeued fd wt sound) none)
    (hcleaned : ∀ fd sound, P (.cleaned fd sound) none) : P o o.move := by
  cases o with
  | accepted what t =>
      cases what with
      | post hnd => exact hpost hnd t
      | delay ent => exact hdelay ent t
      | event fd wt hnd timer => exact hevent fd wt hnd timer t
  | invoked cause hnd t ints errs =>
      cases cause with
      | post => exact hrunPost hnd t ints errs
      | delay ent code =>
          have h := hrunDelay ent code hnd t ints errs
          cases code <;> exact h
      | event fd wt code now =>
          have h := hfire fd wt code now hnd t ints errs
          cases code <;> exact h
  | dequeued fd wt sound => exact hdequeued fd wt sound
  | cleaned fd sound => exact hcleaned fd sound

/-- The moves post what is accepted. -/
theorem posted_move : (o.move.bind fun m => m.2.posted) = o.acceptedPost := by
  cases o using Obs.move_cases with
  | hpost | hdelay | hevent | hrunPost | hdequeued | hcleaned => rfl
  | hrunDelay | hfire =>
      split
      all_goals rfl

/-- The moves run the posted handlers that are called. -/
theorem ranPost_move : (o.move.bind fun m => m.2.ranPost) = o.invokedPost := by
  cases o using Obs.move_cases with
  | hpost | hdelay | hevent | hrunPost | hdequeued | hcleaned => rfl
  | hrunDelay | hfire =>
      split
      all_goals rfl

/-- The moves delay what is accepted. -/
theorem delayed_move : (o.move.bind fun m => m.2.delayed) = o.acceptedDelay := by
  cases o using Obs.move_cases with
  | hpost | hdelay | hevent | hrunPost | hdequeued | hcleaned => rfl
  | hrunDelay | hfire =>
      split
      all_goals rfl

/-- The moves take away the delayed handlers that are called. -/
theorem leftDelay_move : (o.move.bind fun m => m.2.leftDelay) = o.calledDelay := by
  cases o using Obs.move_cases with
  | hpost | hdelay | hevent | hrunPost | hdequeued | hcleaned => rfl
  | hrunDelay | hfire =>
      split
      all_goals rfl

variable (fd : ℤ) (wt : WaitType)

/-- The moves arm the events that are accepted. -/
theorem armed_move : (o.move.bind fun m => m.2.armed (fd, wt)) = o.acceptedEvent fd wt := by
  cases o using Obs.move_cases with
  | hpost | hdelay | hrunPost | hdequeued | hcleaned => rfl
  | hevent => simp [Agenda.Action.armed, Obs.acceptedEvent]
  | hrunDelay | hfire =>
      split
      all_goals rfl

/-- The moves fire the events that are completed. -/
theorem fired_move : (o.move.bind fun m => m.2.fired (fd, wt)) = o.invokedEvent fd wt := by
  cases o using Obs.move_cases with
  | hpost | hdelay | hevent | hrunPost | hdequeued | hcleaned => rfl
  | hrunDelay =>
      split
      all_goals rfl
  | hfire =>
      split
      all_goals simp [Agenda.Action.fired, Obs.invokedEvent]

end

/-- The deadlines of the delayed handlers that were called with `EIO_OK`. -/
theorem ranDelay_moves (l : List Obs) :
    ((moves l).filterMap fun m => m.2.ranDelay).map (·.deadline) =
      (l.filterMap Obs.completedDelay).map (·.deadline) := by
  rw [List.map_filterMap, List.map_filterMap]
  refine moves_filterMap (f := fun act => act.ranDelay.map (·.deadline)) (fun o => ?_) l
  cases o using Obs.move_cases with
  | hpost | hdelay | hevent | hrunPost | hdequeued | hcleaned => rfl
  | hrunDelay ent code => cases code <;> rfl
  | hfire =>
      split
      all_goals rfl

/-- A handler that is called for an event does a move under its key. -/
theorem Obs.move_of_invoked (fd : ℤ) (wt : WaitType) (code : IoErrcode) (now : ℤ) (hnd : IoHandler)
    (t : ℤ) (ints : Addr → Int32) (errs : Addr → IoErrcode) :
    ∃ act : Agenda.Action IoHandler DelayHeapEntry (ℤ × WaitType) IoHandler ℤ,
      Obs.move (.invoked (.event fd wt code now) hnd t ints errs) = some (t, act) ∧
        act.fired (fd, wt) = some hnd ∧ (code = .timeout → act = .expire (fd, wt) hnd) := by
  cases code with
  | timeout => exact ⟨.expire (fd, wt) hnd, rfl, if_pos rfl, fun _ => rfl⟩
  | _ => exact ⟨.fire (fd, wt) hnd, rfl, if_pos rfl, by simp⟩

/-- What is taken on under a key is an event that was accepted. -/
theorem Obs.eq_of_move_arm {o : Obs} {fd : ℤ} {wt : WaitType} {hnd : IoHandler} {d : Option ℤ}
    {t : ℤ} (h : o.move = some (t, .arm (fd, wt) hnd d)) :
    ∃ timer, o = .accepted (.event fd wt hnd timer) t ∧ timer.map (fun x => t + x.2) = d := by
  cases o with
  | accepted what t' =>
      cases what with
      | post hnd' | delay ent => simp [Obs.move] at h
      | event fd' wt' hnd' timer =>
          simp only [Obs.move, Option.some.injEq, Prod.mk.injEq, Agenda.Action.arm.injEq] at h
          obtain ⟨rfl, ⟨rfl, rfl⟩, rfl, hd⟩ := h
          exact ⟨timer, rfl, hd⟩
  | invoked cause hnd' t' ints errs =>
      cases cause with
      | post => simp [Obs.move] at h
      | delay ent code | event fd' wt' code now => cases code <;> simp [Obs.move] at h
  | dequeued | cleaned => cases h

/-- The entry of the log that took on what was last taken on under a key. -/
theorem exists_accepted_of_moves {l : List Obs} {m₁ m₂ : List SvcMove} {fd : ℤ} {wt : WaitType}
    {hnd : IoHandler} {d : Option ℤ} {t : ℤ}
    (h : moves l = m₁ ++ (t, .arm (fd, wt) hnd d) :: m₂) (hm₂ : ∀ m ∈ m₂, m.2.apart (fd, wt)) :
    ∃ k k' timer, l = k ++ .accepted (.event fd wt hnd timer) t :: k' ∧
      timer.map (fun x => t + x.2) = d ∧
      ∀ o ∈ k', o.acceptedEvent fd wt = none ∧ o.invokedEvent fd wt = none := by
  obtain ⟨k, k₂, rfl, -, h₂⟩ := List.filterMap_eq_append_iff.mp h
  obtain ⟨k₀, o, k', rfl, -, ho, hk'⟩ := List.filterMap_eq_cons_iff.mp h₂
  obtain ⟨timer, rfl, hd⟩ := Obs.eq_of_move_arm ho
  refine ⟨k ++ k₀, k', timer, by rw [List.append_assoc], hd, fun x hx => ?_⟩
  rw [← armed_move, ← fired_move]
  cases hmove : x.move with
  | none => exact ⟨rfl, rfl⟩
  | some m => exact hm₂ m (hk' ▸ List.mem_filterMap.mpr ⟨x, hx, hmove⟩)

/-- A run of the agenda that is a log's, before one of its entries. -/
theorem moves_append_cons {l₁ l₂ : List Obs} {o : Obs} {m : SvcMove} (h : o.move = some m) :
    moves (l₁ ++ o :: l₂) = moves l₁ ++ m :: moves l₂ := by
  rw [moves_append, moves, moves, moves, List.filterMap_cons_some h]

/-- An event of fd 5 that is timed out at time 12. -/
def Obs.timedOut : Obs → Bool
  | .invoked (.event fd .read .timeout _) _ t _ _ => decide (fd = 5 ∧ t = 12)
  | _ => false

/-- A whole life: a read of fd 5 with a timeout of 7 and a handler with a delay of 7 are accepted
at time 5. Both are called at time 12, and the loop is left. -/
theorem exists_service_life : ∃ s : Svc RbMem,
    SoundService (fun _ _ => .ret)
        (iosvcCreate ⟨fun _ => true, 0⟩ 5 (fun _ => 7) fun _ => .ok) s ∧
      s.status = .done ∧ (∃ x ∈ s.told Obs.completedDelay, x.deadline = 12) ∧
        ∃ l' l hnd now ints errs,
          s.log = l' ++ .invoked (.event 5 .read .timeout now) hnd 12 ints errs :: l := by
  let beh : Behaviour RbMem := fun _ _ => .ret
  let read : ApiCall := .schedTimeout ⟨5, some .read⟩ ⟨some 2, 0⟩ none 0
  let delay : ApiCall := .postDelay ⟨some 1, 0⟩ none 7
  let s₀ : Svc RbMem := newService 5 (fun _ => 7) fun _ => .ok
  have hrun : (apiCall (fun _ => none) s₀ read).any (fun r₁ =>
      decide (r₁.2.status = .ready) && callOk (fun _ => false) (fun _ => none) s₀ read &&
      (apiCall (fun _ => none) r₁.2 delay).any fun r₂ =>
        decide (r₂.2.status = .ready) && callOk (fun _ => false) (fun _ => none) r₁.2 delay &&
        (pollAndServe beh 0 { r₂.2 with status := .running } (.expired 0)).any fun s₁ =>
          decide (s₁.status = .running) &&
          timerOk beh (Svc.polled { r₂.2 with status := .running } (.expired 0))
            (nextDeadline { r₂.2 with status := .running }).2 &&
          (pollAndServe beh 0 s₁ (.expired 0)).any fun s₂ =>
            timerOk beh (s₁.polled (.expired 0)) (nextDeadline s₁).2 &&
            decide (s₂.pollfds.data = [] ∧ s₂.timedHandlersHeap.data = [] ∧
              s₂.syncHandlers.elems = []) &&
            (s₂.told Obs.completedDelay).any (fun x => decide (x.deadline = 12)) &&
            s₂.log.any Obs.timedOut) = true := by
    decide
  simp only [Option.any_eq_true, Bool.and_eq_true, decide_eq_true_eq, List.any_eq_true] at hrun
  obtain ⟨⟨code₁, s₁⟩, h₁, ⟨hst₁, hok₁⟩, ⟨code₂, s₂⟩, h₂, ⟨hst₂, hok₂⟩, s₃, h₃, ⟨hst₃, hok₃⟩, s₄,
    h₄, ⟨⟨hok₄, hexit⟩, hdelay⟩, o, hmem, ho⟩ := hrun
  have hout : ∀ s : Svc RbMem, s.status = .ready → ¬ s.Live := fun s hst => by simp [Live, hst]
  have hsteps : SoundService beh s₀ { s₄ with status := .done } := by
    refine .head ⟨_, .call read code₁ (hout s₀ rfl) h₁, hok₁⟩ ?_
    refine .head ⟨_, .call delay code₂ (hout s₁ hst₁) h₂, hok₂⟩ ?_
    refine .head ⟨_, .start hst₂, trivial⟩ ?_
    refine .head ⟨_, .iterate 0 (.expired 0) h₃, .inl rfl, hok₃⟩ ?_
    refine .head ⟨_, .iterate 0 (.expired 0) h₄, .inl hst₃, hok₄⟩ ?_
    exact .single ⟨_, .finish hexit, trivial⟩
  refine ⟨_, hsteps, rfl, hdelay, ?_⟩
  obtain ⟨l', l, hlog⟩ := List.append_of_mem hmem
  unfold Obs.timedOut at ho
  split at ho
  next fd now hnd t ints errs =>
    obtain ⟨rfl, rfl⟩ := of_decide_eq_true ho
    exact ⟨l', l, hnd, now, ints, errs, hlog⟩
  next => cases ho

/-! ### The agenda -/

section

variable {beh : Behaviour RbMem} {alloc : Alloc} {clock : ℤ} {ints : Addr → Int32}
  {errs : Addr → IoErrcode} {s : Svc RbMem}

/-- **The log is a run of the agenda**, from an empty one to what is pending, in a life whose steps
all meet their conditions. Nothing is pending when the status is `DONE`. -/
theorem service_refines_agenda (h : SoundService beh (iosvcCreate alloc clock ints errs) s) :
    AgendaRuns clock .empty (moves s.log.reverse) s.clock s.agenda ∧
      (s.status = .done → s.agenda = .empty) :=
  have hinv := serviceInv_of_steps h
  ⟨hinv.runs, hinv.done⟩

/-- A service with a read and a delayed handler, from its creation until it is done. -/
theorem service_refines_agenda_life : ∃ s : Svc RbMem, s.log ≠ [] ∧
    AgendaRuns 5 .empty (moves s.log.reverse) s.clock .empty := by
  obtain ⟨s, hsteps, hdone, -, l', l, _, _, _, _, hlog⟩ := exists_service_life
  obtain ⟨hruns, hempty⟩ := service_refines_agenda hsteps
  exact ⟨s, by simp [hlog], hempty hdone ▸ hruns⟩

/-- **What was accepted is what was called and what is pending**, in a life whose steps all meet
their conditions: in order for the posted handlers and for the events of each fd and wait type, and
as often as it was accepted for the delayed ones. -/
theorem service_accounts (h : SoundService beh (iosvcCreate alloc clock ints errs) s) :
    s.told Obs.acceptedPost = s.told Obs.invokedPost ++ s.syncHandlers.elems ∧
      (s.told Obs.acceptedDelay).Perm (s.told Obs.calledDelay ++ s.timedHandlersHeap.data) ∧
      (∀ fd wt, s.told (Obs.acceptedEvent fd wt) =
        s.told (Obs.invokedEvent fd wt) ++ ((s.view fd wt).map (·.handler)).toList) ∧
      (s.status = .done → s.syncHandlers.elems = [] ∧ s.timedHandlersHeap.data = [] ∧
        ∀ fd wt, s.view fd wt = none) := by
  have hinv := serviceInv_of_steps h
  have hposts := hinv.runs.posts
  have hdelays := hinv.runs.delays
  refine ⟨?_, ?_, fun fd wt => ?_, fun hdone => ?_⟩
  · rwa [moves_filterMap posted_move, moves_filterMap ranPost_move] at hposts
  · rw [moves_filterMap delayed_move, moves_filterMap leftDelay_move] at hdelays
    refine Multiset.coe_eq_coe.mp ?_
    rw [← Multiset.coe_add]
    exact (Multiset.zero_add _).symm.trans hdelays
  · have hevents := hinv.runs.events (fd, wt)
    rw [moves_filterMap fun o => armed_move o fd wt,
      moves_filterMap fun o => fired_move o fd wt] at hevents
    refine hevents.trans ?_
    simp only [Agenda.Pending.waiting, agenda, events, Option.toList_map, List.map_map]
    rfl
  · have hempty := hinv.done hdone
    refine ⟨congrArg Agenda.Pending.posts hempty,
      (Multiset.coe_eq_zero _).mp (congrArg Agenda.Pending.delays hempty), fun fd wt => ?_⟩
    have hevent : s.events (fd, wt) = none :=
      congrFun (congrArg Agenda.Pending.events hempty) (fd, wt)
    exact Option.map_eq_none_iff.mp hevent

/-- In that life the read is completed. -/
theorem service_accounts_life : ∃ s : Svc RbMem, s.told (Obs.invokedEvent 5 .read) ≠ [] ∧
    ∀ fd wt, s.told (Obs.acceptedEvent fd wt) = s.told (Obs.invokedEvent fd wt) := by
  obtain ⟨s, hsteps, hdone, -, l', l, hnd, _, _, _, hlog⟩ := exists_service_life
  obtain ⟨-, -, hevents, hend⟩ := service_accounts hsteps
  refine ⟨s, List.ne_nil_of_mem (a := hnd) ?_, fun fd wt => ?_⟩
  · simp [told, hlog, Obs.invokedEvent]
  · rw [hevents, (hend hdone).2.2, Option.map_none, Option.toList_none, List.append_nil]

/-- **No delayed handler is called with `EIO_OK` before its deadline**, and those that are called
with it are called in the order of their deadlines, in a life whose steps all meet their
conditions. -/
theorem service_punctual (h : SoundService beh (iosvcCreate alloc clock ints errs) s) :
    (∀ ent hnd t ints' errs', .invoked (.delay ent .ok) hnd t ints' errs' ∈ s.log →
      ent.deadline ≤ t) ∧
      (s.told Obs.completedDelay).Pairwise fun x y => x.deadline ≤ y.deadline := by
  have hruns := (serviceInv_of_steps h).runs
  constructor
  · intro ent hnd t ints' errs' hmem
    have hmove : (t, .runDelay { ent with handler := hnd }) ∈ moves s.log.reverse :=
      List.mem_filterMap.mpr ⟨_, List.mem_reverse.mpr hmem, rfl⟩
    have hdue := hruns.due hmove
    exact hdue
  · have hsorted := List.pairwise_map.mpr hruns.sorted
    rw [ranDelay_moves] at hsorted
    exact List.pairwise_map.mp hsorted

/-- In that life a delay ends. -/
theorem service_punctual_life : ∃ s : Svc RbMem, s.told Obs.completedDelay ≠ [] ∧
    (s.told Obs.completedDelay).Pairwise fun x y => x.deadline ≤ y.deadline := by
  obtain ⟨s, hsteps, -, ⟨x, hx, -⟩, -⟩ := exists_service_life
  exact ⟨s, List.ne_nil_of_mem hx, (service_punctual hsteps).2⟩

/-- **Every handler that is called for an event is the one that was last accepted** with this fd
and wait type, for this call only, in a life whose steps all meet their conditions. It is not called
with `EIO_TIMEOUT` before the timeout is over. -/
theorem service_matched (h : SoundService beh (iosvcCreate alloc clock ints errs) s)
    {l' l : List Obs} {fd : ℤ} {wt : WaitType} {code : IoErrcode} {now t : ℤ} {hnd : IoHandler}
    {ints' : Addr → Int32} {errs' : Addr → IoErrcode}
    (hlog : s.log = l' ++ .invoked (.event fd wt code now) hnd t ints' errs' :: l) :
    ∃ m m' timer t₀, l = m ++ .accepted (.event fd wt hnd timer) t₀ :: m' ∧
      (∀ o ∈ m, o.acceptedEvent fd wt = none ∧ o.invokedEvent fd wt = none) ∧ t₀ ≤ t ∧
      (code = .timeout → ∃ p T, timer = some (p, T) ∧ t₀ + T ≤ t) := by
  have hruns := (serviceInv_of_steps h).runs
  obtain ⟨act, hmove, hfired, hexpire⟩ := Obs.move_of_invoked fd wt code now hnd t ints' errs'
  rw [hlog, List.reverse_append, List.reverse_cons, List.append_assoc, List.singleton_append,
    moves_append_cons hmove] at hruns
  obtain ⟨m₁, m₂, v, d, hsplit, hm₂, hv, hlate⟩ := hruns.matched rfl hfired
  obtain ⟨k, k', timer, hk, hd, hapart⟩ := exists_accepted_of_moves hsplit hm₂
  refine ⟨k'.reverse, k.reverse, timer, v, ?_, fun o ho => hapart o (List.mem_reverse.mp ho), hv,
    fun hcode => ?_⟩
  · rw [← List.reverse_reverse l, hk]
    simp
  · obtain ⟨e, rfl, he⟩ := hlate (hexpire hcode)
    obtain ⟨⟨p, T⟩, rfl, rfl⟩ := Option.map_eq_some_iff.mp hd
    exact ⟨p, T, rfl, he⟩

/-- In that life a read was accepted, by the time 12. -/
theorem service_matched_life : ∃ (s : Svc RbMem) (hnd : IoHandler) (timer : Option (Addr × ℤ))
    (t₀ : ℤ), .accepted (.event 5 .read hnd timer) t₀ ∈ s.log ∧ t₀ ≤ 12 := by
  obtain ⟨s, hsteps, -, -, l', l, hnd, now, ints, errs, hlog⟩ := exists_service_life
  obtain ⟨m, m', timer, t₀, rfl, -, hle, -⟩ := service_matched hsteps hlog
  exact ⟨s, hnd, timer, t₀, by simp [hlog], hle⟩

end

end IoEngine
