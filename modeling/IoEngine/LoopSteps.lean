import IoEngine.StopView
import IoEngine.QuietPass

/-!
# The Steps of the Event Loop

A service is used by public calls, and by `iosvc_run`, which calls handlers on its way. Every
part of `iosvc_run` that calls a handler is a step of its own (`LoopStep`), and comes with the
condition under which it reaches no defect: the calls of the handler reach none, the node or the
slot that the part keeps over the handler is good when it returns, and the pass of the
dispatcher finds what it was told about.

## Main results

* `iosvcRun_loopSteps`: **`iosvc_run` consists of these steps**, whatever the conditions.
* `LoopInv.step`, `loopInv_of_steps`: steps that **meet their conditions** keep the service
  consistent and its log right, in every state reached from a new service.
-/

open BinHeap RedBlack RedBlack.ColTree

namespace IoEngine

open FdTree Svc LawfulFdTree

/-! ### The conditions -/

section

variable (beh : Behaviour RbMem)

/-- The calls of a handler that starts here reach no defect. -/
def handlerOk (cause : Cause) (hnd : IoHandler) (s : Svc RbMem) : Bool :=
  let start := s.note (.invoked cause hnd s.clock s.ints s.errs)
  scriptOk (beh hnd start) start

/-- Calling the first delayed handler reaches no defect. -/
def delayOk (s : Svc RbMem) : Bool :=
  (s.timedHandlersHeap.data[0]?).all fun top =>
    handlerOk beh (.delay top .ok) top.handler (s.signal top.status .ok)

/-- **One step of a service, and its condition.** Outside of `iosvc_run` there are public calls,
which call no handler, time passes, and the user's variables change. -/
inductive LoopStep (s : Svc RbMem) : Prop → Svc RbMem → Prop
  | call {s' : Svc RbMem} (c : ApiCall) (code : IoErrcode) (hout : ¬ s.Live)
      (h : apiCall (fun _ => none) s c = some (code, s')) :
      LoopStep s (callOk (fun _ => false) (fun _ => none) s c = true) s'
  | user (dt : ℕ) (ints : Addr → Int32) (errs : Addr → IoErrcode) :
      LoopStep s True { s with clock := s.clock + dt, ints := ints, errs := errs }
  | start (h : s.status = .ready) : LoopStep s True { s with status := .running }
  /-- a round of `run_sync_handlers` -/
  | post {hnd : IoHandler} {s₁ : Svc RbMem} (hq : s.syncHandlers.elems.head? = some hnd)
      (h : callHandler beh .post hnd s = some s₁) :
      LoopStep s (s.Live ∧ handlerOk beh .post hnd s = true)
        { s₁ with syncHandlers := s₁.syncHandlers.pop }
  | poll (after : ℤ) (revents : List PollMask) (h : 0 ≤ after) :
      LoopStep s True (pollReturns s after revents)
  | pollFailed : LoopStep s True { s with status := .stopping }
  | timeoutEvent {s' : Svc RbMem} (now : ℤ) (h : timeoutFirst beh s true now = some s') :
      LoopStep s (s.Live ∧ timeoutOk beh s now = true) s'
  | timeoutDelay {s' : Svc RbMem} (now : ℤ) (h : timeoutFirst beh s false now = some s') :
      LoopStep s (s.Live ∧ delayOk beh s = true) s'
  | dispatch {s' : Svc RbMem} (fuel : ℕ) (now : ℤ)
      (h : dispatchReadyEvents beh fuel s now = some s') :
      LoopStep s (s.Live ∧ ∀ fuel, passFinding beh now fuel s 0 = .good) s'
  | stop {s' : Svc RbMem} (hst : s.status = .stopping) (h : iosvcPrepStop beh s = some s') :
      LoopStep s True s'
  | finish : LoopStep s True { s with status := .done }

/-- Any number of steps. -/
abbrev LoopSteps : Svc RbMem → Svc RbMem → Prop :=
  Relation.ReflTransGen fun s s' => ∃ P, LoopStep beh s P s'

/-- Any number of steps that meet their conditions. -/
abbrev SoundSteps : Svc RbMem → Svc RbMem → Prop :=
  Relation.ReflTransGen fun s s' => ∃ P, LoopStep beh s P s' ∧ P

end

/-! ### The loop consists of steps -/

section

variable {beh : Behaviour RbMem} {s s' : Svc RbMem}

/-- A step of the loop is a run of steps. -/
theorem LoopStep.steps {P : Prop} (h : LoopStep beh s P s') : LoopSteps beh s s' :=
  .single ⟨P, h⟩

/-- A part of an iteration is a step. -/
theorem PollPart.loopSteps (h : PollPart beh s s') : LoopSteps beh s s' := by
  cases h with
  | poll after revents h => exact (LoopStep.poll after revents h).steps
  | failed => exact LoopStep.pollFailed.steps
  | timeout isEvent now h =>
      cases isEvent with
      | true => exact (LoopStep.timeoutEvent now h).steps
      | false => exact (LoopStep.timeoutDelay now h).steps
  | dispatch fuel now h => exact (LoopStep.dispatch fuel now h).steps

/-- A part of a run consists of steps. -/
theorem RunPart.loopSteps (h : RunPart beh s s') : LoopSteps beh s s' := by
  cases h with
  | start h => exact (LoopStep.start h).steps
  | post hq h => exact (LoopStep.post hq h).steps
  | iterate fuel o h => exact (pollAndServe_parts h).lift' id fun _ _ => PollPart.loopSteps
  | stop hst hq h => exact (LoopStep.stop hst h).steps.trans LoopStep.finish.steps
  | finish h => exact LoopStep.finish.steps

/-- **`iosvc_run` consists of steps.** -/
theorem iosvcRun_loopSteps {fuel : ℕ} {outcomes : List PollOutcome} {code : IoErrcode}
    (h : iosvcRun beh fuel outcomes s = some (code, s')) : LoopSteps beh s s' :=
  (iosvcRun_parts h).lift' id fun _ _ => RunPart.loopSteps

end

/-! ### What sound steps keep -/

/-- **What holds between the steps**: the service is consistent, and its log is right. -/
structure LoopInv (s : Svc RbMem) : Prop where
  inv : Inv [] s
  log : LogOk s

section

variable {beh : Behaviour RbMem} {s s' : Svc RbMem}

/-- The invariant of the loop depends on the events, the clock and the log only. -/
theorem LoopInv.frame (h : LoopInv s) (htree : s'.asyncHandlers = s.asyncHandlers)
    (hnodes : s'.nodes = s.nodes) (hpoll : s'.pollfds.data = s.pollfds.data)
    (htimed : s'.timed = s.timed) (hnext : s.alloc.next ≤ s'.alloc.next) (hlog : s'.log = s.log)
    (hclock : s.clock ≤ s'.clock) : LoopInv s' where
  inv := h.inv.frame htree hnodes hpoll htimed hnext
  log := h.log.frame (fun fd wt r hr => by rwa [view_frame htree hnodes htimed] at hr) hlog hclock

/-- An extension that is consistent keeps the invariant of the loop. -/
theorem LoopInv.of_extends (h : LoopInv s) (hinv : Inv [] s') (hext : Extends s s') : LoopInv s' :=
  ⟨hinv, hext.logOk h.log⟩

/-- A public call outside of `iosvc_run` calls no handler. -/
theorem LoopInv.call (h : LoopInv s) {c : ApiCall} {code : IoErrcode} (hout : ¬ s.Live)
    (hok : callOk (fun _ => false) (fun _ => none) s c = true)
    (hrun : apiCall (fun _ => none) s c = some (code, s')) : LoopInv s' := by
  by_cases hc : c = .reset ∨ c = .run
  · rcases hc with rfl | rfl
    · obtain ⟨-, rfl⟩ := Prod.mk.inj (Option.some.inj hrun)
      cases hst : s.status with
      | running => exact absurd (.inl hst) hout
      | stopping => exact absurd (.inr hst) hout
      | ready | done => exact h.frame rfl rfl rfl rfl le_rfl rfl le_rfl
    · obtain ⟨code', -, hrun⟩ := Option.map_eq_some_iff.mp hrun
      obtain ⟨-, rfl⟩ := Prod.mk.inj hrun
      exact h
  · obtain ⟨code₁, s₁, hrun₁, hinv, hext⟩ := h.inv.apiCall (fun hc' => absurd hc' hc) hok
      fun _ _ hbody => by cases hbody
    obtain ⟨rfl, rfl⟩ := Prod.mk.inj (Option.some.inj (hrun.symm.trans hrun₁))
    exact h.of_extends hinv hext

/-- **Calling a handler** that is not an event's. -/
theorem LoopInv.handler (h : LoopInv s) (hlive : s.Live) {cause : Cause} {hnd : IoHandler}
    (hcause : ∀ fd wt code now, cause ≠ .event fd wt code now)
    (hok : handlerOk beh cause hnd s = true) (hrun : callHandler beh cause hnd s = some s') :
    LoopInv s' := by
  have hstart : LoopInv (s.note (.invoked cause hnd s.clock s.ints s.errs)) := by
    refine ⟨h.inv.frame rfl rfl rfl rfl le_rfl, h.log.note (fun _ _ _ => rfl) fun l hl => ?_⟩
    cases cause with
    | event fd wt code now => exact absurd rfl (hcause fd wt code now)
    | post => exact hl
    | delay ent code => exact hl
  obtain ⟨s₁, hrun₁, hinv, hext⟩ := hstart.inv.exec _ hlive hok
  unfold callHandler invoke at hrun
  split at hrun
  next => cases hrun
  next =>
    obtain rfl := Option.some.inj (hrun.symm.trans hrun₁)
    exact hstart.of_extends hinv hext

/-- **Timing out** the first timed event. -/
theorem LoopInv.timeoutEvent (h : LoopInv s) (hlive : s.Live) {now : ℤ}
    (hok : timeoutOk beh s now = true) (hrun : timeoutFirst beh s true now = some s') :
    LoopInv s' := by
  rw [timeoutFirst, if_pos rfl] at hrun
  obtain ⟨top, htop, -⟩ := Option.bind_eq_some_iff.mp hrun
  obtain ⟨fd, d, s₀, s₁, -, -, -, hstart, -, hinv₁, hext₁, heq⟩ := h.inv.timeout_starts now htop
  simp only [timeoutOk, hstart, Option.all_some, Bool.and_eq_true] at hok
  obtain ⟨s₂, hrun₂, hinv₂, hext₂⟩ := hinv₁.exec _ (hext₁.live hlive) hok.1
  rw [hrun₂, Option.all_some] at hok
  obtain ⟨s₃, hrun₃, hinv₃, hfin⟩ := hinv₂.finishTimeout hok.2
  rw [heq, hrun₂, Option.bind_some, hrun₃] at hrun
  obtain rfl := Option.some.inj hrun
  exact h.of_extends hinv₃ ((hext₁.trans hext₂).trans hfin.extension)

/-- **A pass of the dispatcher.** -/
theorem LoopInv.dispatch (h : LoopInv s) (hlive : s.Live) {fuel : ℕ} {now : ℤ}
    (hok : ∀ fuel, passFinding beh now fuel s 0 = .good)
    (hrun : dispatchReadyEvents beh fuel s now = some s') : LoopInv s' := by
  obtain ⟨fuel₁, s₁, hrun₁, hinv, hext, -⟩ := h.inv.dispatch hlive hok
  obtain rfl := dispatchLoop_unique hrun hrun₁
  exact h.of_extends hinv hext

/-- **Calling the first delayed handler**, and removing its entry. -/
theorem LoopInv.timeoutDelay (h : LoopInv s) (hlive : s.Live) (hok : delayOk beh s = true)
    (hrun : timeoutDelay beh s = some s') : LoopInv s' := by
  rw [timeoutDelay_eq] at hrun
  obtain ⟨top, htop, hrun⟩ := Option.bind_eq_some_iff.mp hrun
  obtain ⟨s₁, h₁, hpop⟩ := Option.bind_eq_some_iff.mp hrun
  rw [delayOk, htop, Option.all_some] at hok
  have hsignal : LoopInv (s.signal top.status .ok) := by
    rw [signal_eq]
    exact h.frame rfl rfl rfl rfl le_rfl rfl le_rfl
  have hlive' : (s.signal top.status .ok).Live := by
    rw [signal_eq]
    exact hlive
  have hcalled := hsignal.handler hlive' (by simp) hok h₁
  obtain ⟨hsame, -⟩ := popDelay_same hpop
  rw [hsame]
  exact hcalled.frame rfl rfl rfl rfl le_rfl rfl le_rfl

/-- What `poll` reports is not looked at by the invariant. -/
theorem LoopInv.poll (h : LoopInv s) {after : ℤ} (hafter : 0 ≤ after) (revents : List PollMask) :
    LoopInv (pollReturns s after revents) where
  inv := h.inv.pollReturns after revents
  log := h.log.frame (fun fd wt r hr => by rwa [view_frame rfl rfl rfl] at hr) rfl
    (Int.le_add_of_nonneg_right hafter)

/-- **One sound step** keeps the service consistent and its log right. -/
theorem LoopInv.step (h : LoopInv s) {P : Prop} (hstep : LoopStep beh s P s') (hP : P) :
    LoopInv s' := by
  cases hstep with
  | call c code hout hrun => exact h.call hout hP hrun
  | user dt ints errs =>
      exact h.frame rfl rfl rfl rfl le_rfl rfl (Int.le_add_of_nonneg_right (Int.natCast_nonneg dt))
  | start | pollFailed | finish => exact h.frame rfl rfl rfl rfl le_rfl rfl le_rfl
  | @post hnd s₁ hq hrun =>
      exact (h.handler hP.1 (by simp) hP.2 hrun).frame rfl rfl rfl rfl le_rfl rfl le_rfl
  | poll after revents hafter => exact h.poll hafter revents
  | timeoutEvent now hrun => exact h.timeoutEvent hP.1 hP.2 hrun
  | timeoutDelay now hrun => exact h.timeoutDelay hP.1 hP.2 hrun
  | dispatch fuel now hrun => exact h.dispatch hP.1 hP.2 hrun
  | stop hst hrun =>
      obtain ⟨hinv, hlog⟩ := h.log.prepStop h.inv hst hrun
      exact ⟨hinv, hlog⟩

/-- **Sound steps from a new service** keep it consistent, and its log right. -/
theorem loopInv_of_steps {alloc : Alloc} {clock : ℤ} {ints : Addr → Int32}
    {errs : Addr → IoErrcode} (h : SoundSteps beh (iosvcCreate alloc clock ints errs) s) :
    LoopInv s := by
  induction h with
  | refl =>
      refine ⟨inv_create alloc clock ints errs, fun fd wt r hr => ?_, trivial⟩
      rw [view_create] at hr
      cases hr
  | tail _ hstep ih =>
      obtain ⟨P, hstep, hP⟩ := hstep
      exact ih.step hstep hP

end

end IoEngine
