import IoEngine.LoopSteps
import IoEngine.ServiceAgenda

/-!
# The Event Loop on the Agenda

The parts of `iosvc_run` that call handlers, and what each does to the agenda of the service:
a timed event and a pass of the dispatcher take events off it, a round of `run_sync_handlers` the
first post, the delay branch of `timeout_first` an earliest delay, and the stop all that is left.

## Main results

* `Inv.timeoutEvent_worked`, `PassSteps.worked`: **events are completed** by moves.
* `LoopInv.post_served`, `LoopInv.delay_served`: **posts and delays are done** by moves.
* `Moved.prepStop`: the stop leaves **no delay and no event**.
-/

open BinHeap RedBlack RedBlack.ColTree

namespace IoEngine

open FdTree Svc LawfulFdTree

/-! ### Events -/

section

variable {τ π : Type} [FdTree τ π] [LawfulFdTree τ π] {s s' : Svc τ}

/-- **A timed event** whose deadline has come is taken off the agenda. -/
theorem Inv.timeoutEvent_worked (h : Inv [] s) (hlive : s.Live) {beh : Behaviour τ} {now : ℤ}
    {top : AsyncHeapEntry} (htop : s.timed[0]? = some top) (hdue : top.deadline ≤ s.clock)
    (hok : ∀ a fd hnd s₁, timeoutStarts s now = some (a, fd, hnd, s₁) →
      scriptOk (beh hnd s₁) s₁ = true ∧
        (IoEngine.exec (beh hnd s₁) s₁).all (fun s₂ => nodeOk s₂ a fd) = true)
    (hrun : IoEngine.timeoutEvent beh s now = some s') : ∃ l, Worked s s' l := by
  obtain ⟨fd, d, s₀, s₁, hfd, hd, hdeq, hstart, rfl, hinv₁, hext₁, heq⟩ := h.timeout_starts now htop
  obtain ⟨hscript, hnode⟩ := hok _ _ _ _ hstart
  have hent : entryOf s.timed top.ioOpData top.eventType = some top :=
    h.linked.entryOf_eq.mpr ⟨List.mem_of_getElem? htop, rfl, rfl⟩
  have hview : s.view fd top.eventType =
      some ⟨d.handler, d.status, some (top.deadline, top.remaining)⟩ := by
    rw [view_of_lookup hfd, hd, hent]
    rfl
  have hstarted := hdeq.worked (s₀.setInt top.remaining 0).ints s₀.errs hview
    fun _ => ⟨_, _, rfl, hdue⟩
  rw [heq] at hrun
  obtain ⟨s₂, hs₂, hfin⟩ := Option.bind_eq_some_iff.mp hrun
  obtain ⟨hinv₂, l, hl⟩ := hinv₁.exec_worked _ (hext₁.live hlive) hscript hs₂
  rw [hs₂, Option.all_some] at hnode
  obtain ⟨s₃, hs₃, -, hfinished⟩ := hinv₂.finishTimeout hnode
  obtain rfl := Option.some.inj (hfin.symm.trans hs₃)
  exact ⟨_, (hstarted.trans hl).trans (hfinished.worked (finishTimeout_same hfin))⟩

/-- **Completing an event** takes it off the agenda. -/
theorem Inv.serve_worked {V : List ℤ} {beh : Behaviour τ} {place : π} {fd now : ℤ} {wt : WaitType}
    {code : IoErrcode} (h : Inv V s) (hlive : s.Live) (hp : stillPending s place fd wt = true)
    (hok : serveOk beh s fd wt now code = true) (hcode : code ≠ .timeout)
    (hrun : IoEngine.serve beh s place fd wt now code = some s') : ∃ l, Worked s s' l := by
  obtain ⟨a, d, ha, hl, hd⟩ := stillPending_iff.mp hp
  simp only [serveOk, ha, Option.all_some, Bool.and_eq_true] at hok
  obtain ⟨s₁', s₁, hstart, hdeq, rfl, hinv₁, hext₁, heq⟩ :=
    h.serve_starts now ha hl hd hok.1 hcode
  rw [hstart, Option.all_some] at hok
  have hnote : Worked s (s.note (.dequeued fd wt true)) [.dequeued fd wt true] :=
    .of_quiet rfl rfl rfl id rfl rfl fun _ _ => .nil le_rfl
  have hview : (s.note (.dequeued fd wt true)).view fd wt =
      some (d.pendingWith (entryOf s.timed a wt)) := by
    rw [view_of_lookup (s := s.note (.dequeued fd wt true)) ha]
    exact congrArg (Option.map _) hd
  have hstarted := hdeq.worked s₁'.ints s₁'.errs hview
    fun hc => absurd hc hcode
  rw [heq] at hrun
  obtain ⟨-, l, hl⟩ := hinv₁.exec_worked _ (hext₁.live hlive) hok.2 hrun
  exact ⟨_, (hnote.trans hstarted).trans hl⟩

omit [LawfulFdTree τ π] in
/-- The end of an entry touches the tree, the nodes, the `pollfd`s and the log only. -/
theorem endEntry_same {i : ℕ} {place : π} {fd : ℤ} {invalid next : Bool}
    (h : endEntry i place fd invalid s = some (next, s')) :
    s' = { s with
      asyncHandlers := s'.asyncHandlers, nodes := s'.nodes, pollfds := s'.pollfds
      log := s'.log } := by
  obtain ⟨e, -, h⟩ := Option.bind_eq_some_iff.mp h
  dsimp only at h
  split at h
  · obtain ⟨s₁, h₁, h⟩ := Option.map_eq_some_iff.mp h
    obtain ⟨-, rfl⟩ := Prod.mk.inj h
    rw [cleanup_same h₁]
    split <;> rfl
  · obtain ⟨-, rfl⟩ := Prod.mk.inj (Option.some.inj h)
    split <;> rfl

omit [LawfulFdTree τ π] in

/-- **The end of an entry** is work of which the agenda sees nothing. -/
theorem EntryEnd.worked {i : ℕ} {place : π} {fd : ℤ} {invalid next : Bool}
    (hend : EntryEnd s s' fd) (h : endEntry i place fd invalid s = some (next, s')) :
    ∃ l, Worked s s' l := by
  have hs := endEntry_same h
  have hevents : s'.events = s.events := events_congr fun _ _ => by rw [hend.view]
  have hclock : s'.clock = s.clock := by rw [hs]
  have hlive : s.Live → s'.Live := by
    rw [Svc.Live, Svc.Live, hend.status]
    exact id
  rcases hend.log with hlog | hlog
  · exact ⟨[], .of_frame (by rw [hs]) (by rw [hs]) hlog hlive hclock.ge
      fun _ _ => by rw [hend.view]⟩
  · refine ⟨[.cleaned fd true], .of_quiet (by rw [hs]) (by rw [hs]) hlog hlive rfl rfl
      fun _ _ => ?_⟩
    rw [hevents, hclock]
    exact .nil le_rfl

/-- **A step of a pass** takes an event off the agenda, or leaves it as it is. -/
theorem PassStep.worked {beh : Behaviour τ} (h : PassStep beh s s') : ∃ l, Worked s s' l := by
  cases h with
  | serve h hlive hp hok hcode hrun => exact h.serve_worked hlive hp hok hcode hrun
  | ends h hrun => exact h.worked hrun

/-- **A pass of the dispatcher** takes events off the agenda. -/
theorem PassSteps.worked {beh : Behaviour τ} (h : PassSteps beh s s') : ∃ l, Worked s s' l := by
  induction h with
  | refl => exact ⟨[], .of_frame rfl rfl rfl id le_rfl fun _ _ => rfl⟩
  | tail _ hstep ih =>
      obtain ⟨l, hl⟩ := ih
      obtain ⟨l', hl'⟩ := hstep.worked
      exact ⟨_, hl.trans hl'⟩

end

/-! ### Steps on the whole agenda -/

section

variable {τ : Type}

/-- The delayed handlers are in heap order, and their deadlines are near. -/
structure OnTime (s : Svc τ) : Prop where
  ordered : DelaysOrdered s.timedHandlersHeap.data
  near : ∀ e ∈ s.timedHandlersHeap.data, e.deadline ≤ s.clock + (2 ^ 31 - 1)

/-- The delayed handlers stay on time while their heap does not change. -/
theorem OnTime.frame {s s' : Svc τ} (h : OnTime s)
    (hd : s'.timedHandlersHeap.data = s.timedHandlersHeap.data) (hclock : s.clock ≤ s'.clock) :
    OnTime s' :=
  ⟨hd ▸ h.ordered, fun e he => (h.near e (hd ▸ he)).trans (by omega)⟩

variable {π : Type} [FdTree τ π]

/-- **Between two states the agenda was moved on**; `l` is what the log says, in this order. -/
structure Moved (s s' : Svc τ) (l : List Obs) : Prop where
  log : s'.log = l.reverse ++ s.log
  runs : AgendaRuns s.clock s.agenda (moves l) s'.clock s'.agenda

variable {s s₁ s₂ s₃ s' : Svc τ} {l l₁ l₂ : List Obs}

/-- Two parts of a run make the moves of both. -/
theorem Moved.trans (h₁ : Moved s₁ s₂ l₁) (h₂ : Moved s₂ s₃ l₂) : Moved s₁ s₃ (l₁ ++ l₂) where
  log := by rw [h₂.log, h₁.log, List.reverse_append, List.append_assoc]
  runs := by
    rw [moves_append]
    exact h₁.runs.append h₂.runs

/-- Work makes the moves that it notes. -/
theorem Worked.moved (h : Worked s s' l) : Moved s s' l where
  log := h.log
  runs := by
    have hruns := h.runs s.syncHandlers.elems s.timedHandlersHeap.data
    rwa [← h.queue, Multiset.coe_add, ← Multiset.coe_eq_coe.mpr h.heap] at hruns

/-- Work keeps the delayed handlers on time. -/
theorem Worked.onTime (h : Worked s s' l) (hs : OnTime s) : OnTime s' where
  ordered := h.ordered hs.ordered
  near := fun e he => by
    have hclock := h.clock
    rcases List.mem_append.mp (h.heap.mem_iff.mp he) with he | he
    · exact (hs.near e he).trans (by omega)
    · exact h.near e he

/-- Nothing has happened to the agenda. -/
theorem Moved.of_frame (hq : s'.syncHandlers = s.syncHandlers)
    (hd : s'.timedHandlersHeap = s.timedHandlersHeap) (hlog : s'.log = s.log)
    (hclock : s.clock ≤ s'.clock) (hview : ∀ fd wt, s'.view fd wt = s.view fd wt) :
    Moved s s' [] where
  log := hlog
  runs := by
    rw [Svc.agenda, Svc.agenda, hq, hd, events_congr hview]
    exact .nil hclock

end

section

variable {beh : Behaviour RbMem} {s s₁ s' : Svc RbMem} {l : List Obs}

/-- **What a part of the loop does** to a consistent service and to its agenda. -/
structure Served (s s' : Svc RbMem) : Prop where
  loop : LoopInv s'
  time : OnTime s'
  live : s.Live → s'.Live
  moved : ∃ l, Moved s s' l

/-- Two parts that serve the agenda serve it together. -/
theorem Served.trans {s₁ s₂ s₃ : Svc RbMem} (h₁ : Served s₁ s₂) (h₂ : Served s₂ s₃) :
    Served s₁ s₃ := by
  obtain ⟨l₁, hm₁⟩ := h₁.moved
  obtain ⟨l₂, hm₂⟩ := h₂.moved
  exact ⟨h₂.loop, h₂.time, h₂.live ∘ h₁.live, _, hm₁.trans hm₂⟩

/-- Work that keeps the invariant of the loop serves the agenda. -/
theorem Worked.served (hl : Worked s s' l) (hloop : LoopInv s') (htime : OnTime s) : Served s s' :=
  ⟨hloop, hl.onTime htime, hl.live, l, hl.moved⟩

/-- What `poll` does. -/
theorem LoopInv.poll_served (h : LoopInv s) (htime : OnTime s) {after : ℤ} (hafter : 0 ≤ after)
    (revents : List PollMask) : Served s (pollReturns s after revents) := by
  have hclock : s.clock ≤ (pollReturns s after revents).clock := Int.le_add_of_nonneg_right hafter
  exact ⟨h.poll hafter revents, htime.frame rfl hclock, id, [],
    .of_frame rfl rfl rfl hclock fun _ _ => rfl⟩

/-- **The first timed event** is timed out once its deadline has come. -/
theorem LoopInv.timeout_served (h : LoopInv s) (htime : OnTime s) (hlive : s.Live) {now : ℤ}
    {top : AsyncHeapEntry} (htop : s.timed[0]? = some top) (hdue : top.deadline ≤ s.clock)
    (hok : timeoutOk beh s now = true) (hrun : timeoutFirst beh s true now = some s') :
    Served s s' := by
  obtain ⟨l, hl⟩ := h.inv.timeoutEvent_worked hlive htop hdue
    (fun a fd hnd s₁ hstart => by
      rw [timeoutOk, hstart, Option.all_some, Bool.and_eq_true] at hok
      exact hok) hrun
  exact hl.served (h.timeoutEvent hlive hok hrun) htime

/-- **A pass of the dispatcher.** -/
theorem LoopInv.dispatch_served (h : LoopInv s) (htime : OnTime s) (hlive : s.Live) {fuel : ℕ}
    {now : ℤ} (hok : ∀ fuel, passFinding beh now fuel s 0 = .good)
    (hrun : dispatchReadyEvents beh fuel s now = some s') : Served s s' := by
  obtain ⟨fuel₁, s₁, hrun₁, -, -, hsteps⟩ := h.inv.dispatch hlive hok
  obtain rfl := dispatchLoop_unique hrun hrun₁
  obtain ⟨l, hl⟩ := PassSteps.worked hsteps
  exact hl.served (h.dispatch hlive hok hrun) htime

/-- A handler that is not an event's works on the agenda. -/
theorem LoopInv.handler_worked (h : LoopInv s) (hlive : s.Live) {cause : Cause} {hnd : IoHandler}
    (hok : handlerOk beh cause hnd s = true) (hrun : callHandler beh cause hnd s = some s') :
    ∃ l, Worked (s.note (.invoked cause hnd s.clock s.ints s.errs)) s' l := by
  unfold callHandler invoke at hrun
  split at hrun
  next => cases hrun
  next =>
    have hstart : Inv [] (s.note (.invoked cause hnd s.clock s.ints s.errs)) :=
      h.inv.frame rfl rfl rfl rfl le_rfl
    exact (hstart.exec_worked _ hlive hok hrun).2

/-- **A round of `run_sync_handlers`** does the first post. -/
theorem LoopInv.post_served (h : LoopInv s) (htime : OnTime s) (hlive : s.Live) {hnd : IoHandler}
    (hq : s.syncHandlers.elems.head? = some hnd) (hok : handlerOk beh .post hnd s = true)
    (hrun : callHandler beh .post hnd s = some s₁) :
    Served s { s₁ with syncHandlers := s₁.syncHandlers.pop } := by
  obtain ⟨l, hl⟩ := h.handler_worked hlive hok hrun
  obtain ⟨rest, hrest⟩ := List.head?_eq_some_iff.mp hq
  -- the handler that has returned is still the first one in the queue
  have hpop : s₁.syncHandlers.pop.elems = rest ++ l.filterMap Obs.acceptedPost := by
    rw [CBuffer.pop, hl.queue]
    simp [note, hrest]
  have hstart : OnTime (s.note (.invoked .post hnd s.clock s.ints s.errs)) :=
    htime.frame rfl le_rfl
  refine ⟨(h.handler hlive (by simp) hok hrun).frame rfl rfl rfl rfl le_rfl rfl le_rfl,
    (hl.onTime hstart).frame rfl le_rfl, hl.live,
    .invoked .post hnd s.clock s.ints s.errs :: l, ?_, ?_⟩
  · show s₁.log = _
    rw [hl.log, List.reverse_cons, List.append_assoc]
    rfl
  · have hmove : Agenda.Move DelayHeapEntry.deadline s.clock s.agenda (.runPost hnd)
        ⟨rest, s.timedHandlersHeap.data, s.events⟩ := .runPost hrest
    have hheap : s₁.timedHandlersHeap.data.Perm
        (s.timedHandlersHeap.data ++ l.filterMap Obs.acceptedDelay) := hl.heap
    have hruns := hl.runs rest s.timedHandlersHeap.data
    rw [← hpop, Multiset.coe_add, ← Multiset.coe_eq_coe.mpr hheap] at hruns
    exact .cons le_rfl hmove hruns

/-- **The delay branch of `timeout_first`** does an earliest delay, once its time has come. -/
theorem LoopInv.delay_served (h : LoopInv s) (htime : OnTime s) (hlive : s.Live)
    {top : DelayHeapEntry} (htop : s.timedHandlersHeap.data[0]? = some top)
    (hdue : top.deadline ≤ s.clock) (hok : delayOk beh s = true)
    (hrun : IoEngine.timeoutDelay beh s = some s') : Served s s' := by
  have hloop' := h.timeoutDelay hlive hok hrun
  rw [timeoutDelay_eq, htop, Option.bind_some] at hrun
  obtain ⟨s₁, h₁, hpop⟩ := Option.bind_eq_some_iff.mp hrun
  rw [delayOk, htop, Option.all_some] at hok
  obtain ⟨rest, hrest⟩ : ∃ rest, s.timedHandlersHeap.data = top :: rest := by
    cases hd : s.timedHandlersHeap.data with
    | nil => simp [hd] at htop
    | cons x rest => exact ⟨rest, by simpa [hd] using htop⟩
  obtain ⟨s₀, hs₀⟩ : ∃ s₀, s₀ = s.signal top.status .ok := ⟨_, rfl⟩
  rw [← hs₀] at h₁ hok
  have hsame : s₀ = { s with errs := s₀.errs } := by rw [hs₀, signal_eq]
  have hloop : LoopInv s₀ := by
    rw [hsame]
    exact h.frame rfl rfl rfl rfl le_rfl rfl le_rfl
  have hlive₀ : s₀.Live := by
    rw [hsame]
    exact hlive
  obtain ⟨l, hl⟩ := hloop.handler_worked hlive₀ hok h₁
  have htime₁ : OnTime s₁ := by
    refine hl.onTime ?_
    rw [hsame]
    exact htime.frame rfl le_rfl
  -- the handler may have added entries, but none in front of its own
  have htop₁ : s₁.timedHandlersHeap.data[0]? = some top := by
    refine hl.top top ?_ ?_ <;> rw [hsame]
    · exact htop
    · exact hdue
  obtain ⟨s₂, hpop₂, hsame₂, hperm, hordered⟩ := popDelay_spec htime₁.ordered htop₁
  obtain rfl := Option.some.inj (hpop.symm.trans hpop₂)
  have hrest₁ : (rest ++ l.filterMap Obs.acceptedDelay).Perm s'.timedHandlersHeap.data := by
    have hheap := hl.heap
    rw [hsame] at hheap
    exact ((hperm.symm.trans hheap).trans (.of_eq (by simp [note, hrest]))).cons_inv.symm
  have htime' : OnTime s' := by
    refine ⟨hordered, fun e he => ?_⟩
    rw [hsame₂]
    exact htime₁.near e (hperm.mem_iff.mpr (List.mem_cons_of_mem _ he))
  have hlive' : s'.Live := by
    rw [hsame₂]
    exact hl.live hlive₀
  refine ⟨hloop', htime', fun _ => hlive',
    .invoked (.delay top .ok) top.handler s₀.clock s₀.ints s₀.errs :: l, ?_, ?_⟩
  · rw [hsame₂]
    show s₁.log = _
    rw [hl.log, List.reverse_cons, List.append_assoc, hsame]
    rfl
  · have hleast : ∀ e ∈ (rest : Multiset DelayHeapEntry), top.deadline ≤ e.deadline := fun e he =>
      htime.ordered.le_deadline htop (hrest ▸ List.mem_cons_of_mem _ he)
    have hdelays : (s.timedHandlersHeap.data : Multiset DelayHeapEntry) = top ::ₘ rest := by
      rw [hrest, Multiset.cons_coe]
    have hmove : Agenda.Move DelayHeapEntry.deadline s.clock s.agenda (.runDelay top)
        ⟨s.syncHandlers.elems, rest, s.events⟩ := .runDelay hdelays hdue hleast
    have hruns := hl.runs s.syncHandlers.elems rest
    have hqueue : s.syncHandlers.elems ++ l.filterMap Obs.acceptedPost = s'.syncHandlers.elems := by
      rw [hsame₂]
      show _ = s₁.syncHandlers.elems
      rw [hl.queue, hsame]
      rfl
    have hevents : s₁.events = s'.events := by
      rw [hsame₂]
      exact events_congr fun _ _ => rfl
    have hclock₁ : s₁.clock = s'.clock := by rw [hsame₂]
    have hevents₀ : (s₀.note (.invoked (.delay top .ok) top.handler s₀.clock s₀.ints
        s₀.errs)).events = s.events := by
      rw [hsame]
      exact events_congr fun _ _ => rfl
    have hclock₀ : s₀.clock = s.clock := by rw [hsame]
    rw [hqueue, Multiset.coe_add, Multiset.coe_eq_coe.mpr hrest₁, hevents, hclock₁,
      hevents₀] at hruns
    have hmoves : moves (.invoked (.delay top .ok) top.handler s₀.clock s₀.ints s₀.errs :: l) =
        (s.clock, .runDelay top) :: moves l := by
      rw [hclock₀]
      rfl
    rw [hmoves]
    exact .cons le_rfl hmove (hruns.of_le hclock₀.ge)

end

/-! ### The stop -/

/-- What completing a target does to the agenda. -/
def StopTarget.action :
    StopTarget → Agenda.Action IoHandler DelayHeapEntry (ℤ × WaitType) IoHandler ℤ
  | delay ent => .dropDelay ent
  | event fd wt r => .fire (fd, wt) r.handler

/-- Completing targets one after another, at whatever times. -/
inductive Drops : SvcAgenda → List StopTarget → SvcAgenda → Prop
  | nil {a : SvcAgenda} : Drops a [] a
  | cons {a b c : SvcAgenda} {t : StopTarget} {ts : List StopTarget}
      (h : ∀ time, Agenda.Move DelayHeapEntry.deadline time a t.action b) (hrest : Drops b ts c) :
      Drops a (t :: ts) c

/-- Dropping some events and then others drops them all. -/
theorem Drops.append {a b c : SvcAgenda} {ts₁ ts₂ : List StopTarget} (h₁ : Drops a ts₁ b)
    (h₂ : Drops b ts₂ c) : Drops a (ts₁ ++ ts₂) c := by
  induction h₁ with
  | nil => exact h₂
  | cons h _ ih => exact .cons h (ih h₂)

/-- Every delay is dropped. -/
theorem drops_delays (posts : List IoHandler) (delays : List DelayHeapEntry)
    (events : ℤ × WaitType → Option (IoHandler × Option ℤ)) :
    Drops ⟨posts, delays, events⟩ (delays.map StopTarget.delay) ⟨posts, 0, events⟩ := by
  induction delays with
  | nil => exact .nil
  | cons ent rest ih =>
      have hmove : ∀ time, Agenda.Move DelayHeapEntry.deadline time
          (⟨posts, (ent :: rest : List _), events⟩ : SvcAgenda) (.dropDelay ent)
          ⟨posts, rest, events⟩ :=
        fun time => .dropDelay (Multiset.cons_coe ent rest).symm
      exact .cons hmove ih

/-- The key of an event that is a target. -/
def StopTarget.key : StopTarget → Option (ℤ × WaitType)
  | delay _ => none
  | event fd wt _ => some (fd, wt)

/-- Events under different keys are taken off one after the other. -/
theorem drops_events (posts : List IoHandler) (delays : Multiset DelayHeapEntry)
    (events : ℤ × WaitType → Option (IoHandler × Option ℤ)) {ts : List StopTarget}
    (hnodup : (ts.filterMap StopTarget.key).Nodup)
    (hpend : ∀ t ∈ ts, ∃ fd wt r d, t = .event fd wt r ∧ events (fd, wt) = some (r.handler, d)) :
    ∃ events', Drops ⟨posts, delays, events⟩ ts ⟨posts, delays, events'⟩ ∧
      ∀ k, events' k = if k ∈ ts.filterMap StopTarget.key then none else events k := by
  induction ts generalizing events with
  | nil => exact ⟨events, .nil, fun k => by simp⟩
  | cons t ts ih =>
      obtain ⟨fd, wt, r, d, rfl, hk⟩ := hpend t List.mem_cons_self
      simp only [List.filterMap_cons, StopTarget.key, List.nodup_cons] at hnodup
      obtain ⟨events', hdrops, hevents'⟩ := ih (Function.update events (fd, wt) none)
        hnodup.2 fun t ht => by
          obtain ⟨fd', wt', r', d', rfl, hk'⟩ := hpend t (List.mem_cons_of_mem _ ht)
          have hne : (fd', wt') ≠ (fd, wt) := fun hc =>
            hnodup.1 (List.mem_filterMap.mpr ⟨_, ht, by rw [← hc]; rfl⟩)
          exact ⟨fd', wt', r', d', rfl, (Function.update_of_ne hne _ _).trans hk'⟩
      have hmove : ∀ time, Agenda.Move DelayHeapEntry.deadline time
          (⟨posts, delays, events⟩ : SvcAgenda) (.fire (fd, wt) r.handler)
          ⟨posts, delays, Function.update events (fd, wt) none⟩ :=
        fun time => .fire hk
      refine ⟨events', .cons hmove hdrops, fun k => ?_⟩
      rw [hevents', Function.update_apply]
      simp only [List.filterMap_cons, StopTarget.key, List.mem_cons]
      split <;> split <;> simp_all

/-- The targets of a node are under its fd. -/
theorem fd_of_nodeTargets {n : EventNode} {fd : ℤ} {k : ℤ × WaitType}
    {timed : List AsyncHeapEntry}
    (h : k ∈ (nodeTargets n fd timed).filterMap StopTarget.key) : k.1 = fd := by
  obtain ⟨t, ht, hkey⟩ := List.mem_filterMap.mp h
  obtain ⟨slot, d, -, -, rfl⟩ := mem_nodeTargets ht
  exact (congrArg Prod.fst (Option.some.inj hkey)).symm

/-- The targets of a node are under different wait types. -/
theorem nodup_nodeTargets {n : EventNode} (h : n.Wf) (fd : ℤ) (timed : List AsyncHeapEntry) :
    ((nodeTargets n fd timed).filterMap StopTarget.key).Nodup := by
  rw [((nodeTargets_perm h fd timed).filterMap _).nodup_iff]
  simp only [pendingTargets, List.flatMap_cons, List.flatMap_nil, List.append_nil]
  cases n.pending .read <;> cases n.pending .write <;> cases n.pending .exception <;>
    simp [StopTarget.key]

/-- The targets of a tree are under different keys. -/
theorem nodup_treeTargets {N : Addr → Option EventNode} {timed : List AsyncHeapEntry}
    {T : ColTree RbElem} (hfds : (T.toList.map Prod.snd).Nodup)
    (hwf : ∀ x ∈ T.toList, ∀ n, N x.1 = some n → n.Wf) :
    ((treeTargets N timed T).filterMap StopTarget.key).Nodup := by
  have hfd : ∀ {t : ColTree RbElem} {k : ℤ × WaitType},
      k ∈ (treeTargets N timed t).filterMap StopTarget.key → k.1 ∈ t.toList.map Prod.snd := by
    intro t k hk
    obtain ⟨tgt, ht, hkey⟩ := List.mem_filterMap.mp hk
    obtain ⟨x, hx, n, -, ht⟩ := mem_treeTargets ht
    have hfd := fd_of_nodeTargets (List.mem_filterMap.mpr ⟨tgt, ht, hkey⟩)
    exact List.mem_map.mpr ⟨x, hx, hfd.symm⟩
  induction T with
  | nil => exact .nil
  | node red l x r ihl ihr =>
      simp only [toList, List.map_append, List.map_cons, List.nodup_append, List.nodup_cons,
        List.mem_cons] at hfds
      obtain ⟨hl, ⟨hx, hr⟩, hdisj⟩ := hfds
      have hnode : ∀ k : ℤ × WaitType, k ∈ ((N x.1).toList.flatMap fun n =>
          nodeTargets n x.2 timed).filterMap StopTarget.key → k.1 = x.2 := by
        intro k hk
        cases hn : N x.1 with
        | none => simp [hn] at hk
        | some n =>
            rw [hn] at hk
            exact fd_of_nodeTargets (n := n) (by simpa using hk)
      simp only [treeTargets, List.filterMap_append, List.nodup_append]
      refine ⟨⟨?_, ihl hl fun y hy => hwf y (by simp [toList, hy]), fun k hk k' hk' he => ?_⟩,
        ihr hr fun y hy => hwf y (by simp [toList, hy]), fun k hk k' hk' he => ?_⟩
      · cases hn : N x.1 with
        | none => simp
        | some n =>
            simpa using nodup_nodeTargets (hwf x (by simp [toList]) n hn) x.2 timed
      · subst he
        exact hdisj _ (hfd hk') _ (.inl (hnode k hk)) rfl
      · subst he
        rcases List.mem_append.mp hk with hk | hk
        · exact hx (hnode k hk ▸ hfd hk')
        · exact hdisj _ (hfd hk) _ (.inr (hfd hk')) rfl

/-- A pending event of a node of the tree is a target of the stop. -/
theorem mem_treeTargets_of {N : Addr → Option EventNode} {timed : List AsyncHeapEntry}
    {T : ColTree RbElem} {x : RbElem} {n : EventNode} {t : StopTarget} (hx : x ∈ T.toList)
    (hn : N x.1 = some n) (ht : t ∈ nodeTargets n x.2 timed) : t ∈ treeTargets N timed T := by
  induction T with
  | nil => cases hx
  | node red l y r ihl ihr =>
      simp only [treeTargets, List.mem_append]
      simp only [toList, List.mem_append, List.mem_cons] at hx
      rcases hx with hx | rfl | hx
      · exact .inl (.inr (ihl hx))
      · exact .inl (.inl (by simpa [hn] using ht))
      · exact .inr (ihr hx)

/-- **What is pending is a target** of the stop. -/
theorem Inv.target_of_view {s : Svc RbMem} {T : ColTree RbElem} (h : Inv [] s)
    (hT : ValidTree s.asyncHandlers T) {fd : ℤ} {wt : WaitType} {r : Pending}
    (hr : s.view fd wt = some r) :
    (fd, wt) ∈ (treeTargets s.nodes s.timed T).filterMap StopTarget.key := by
  obtain ⟨a, ha, hr⟩ := Option.bind_eq_some_iff.mp hr
  obtain ⟨d, hd, -⟩ := Option.map_eq_some_iff.mp hr
  obtain ⟨n, hn, hpend⟩ := Option.bind_eq_some_iff.mp hd
  have hmem : StopTarget.event fd wt (d.pendingIn s.timed) ∈ pendingTargets n fd s.timed := by
    refine List.mem_flatMap.mpr ⟨wt, by cases wt <;> simp, ?_⟩
    rw [hpend]
    exact List.mem_singleton.mpr rfl
  have hnode := (nodeTargets_perm (h.wf a n hn) fd s.timed).mem_iff.mpr hmem
  exact List.mem_filterMap.mpr
    ⟨_, mem_treeTargets_of (x := (a, fd)) (hT.lookup_iff.mp ha) hn hnode, rfl⟩

section

variable {beh : Behaviour RbMem} {now : ℤ} {s s' : Svc RbMem} {ts : List StopTarget}

/-- The move of a target that is completed. -/
theorem StopTarget.move (t : StopTarget) (now time : ℤ) (ints : Addr → Int32)
    (errs : Addr → IoErrcode) :
    (Obs.invoked (t.cause now) t.handler time ints errs).move = some (time, t.action) := by
  cases t <;> rfl

/-- **Completing targets is moving on the agenda.** -/
theorem StopRun.agendaRuns (h : StopRun beh now s ts s') (hst : s.status = .stopping)
    {a b : SvcAgenda} (hdrops : Drops a ts b) :
    ∃ l, s'.log = l.reverse ++ s.log ∧ AgendaRuns s.clock a (moves l) s'.clock b := by
  induction h generalizing a with
  | done h =>
      cases hdrops
      exact ⟨[], h.log, .nil h.clock.ge⟩
  | @stop s s₁ s₂ s' t ts h hrun _ ih =>
      cases hdrops with
      | cons hmove hrest =>
          have hst₁ : (t.signal now s₁).status = .stopping := h.status.trans hst
          obtain ⟨s₂', hrun', hidle⟩ := callHandler_stopping hst₁ beh (t.cause now)
            (isSome_of_callHandler hrun)
          obtain rfl := Option.some.inj (hrun.symm.trans hrun')
          have hst₂ : s₂.status = .stopping := by
            rw [hidle.same]
            exact hst₁
          have hlog₂ : s₂.log = .invoked (t.cause now) t.handler s.clock
              (t.signal now s₁).ints (t.signal now s₁).errs :: s.log := by
            rw [hidle.same, ← h.log, ← h.clock]
            rfl
          have hclock₂ : s.clock ≤ s₂.clock := by
            rw [← h.clock]
            exact hidle.clock
          obtain ⟨l, hlog, hruns⟩ := ih hst₂ hrest
          refine ⟨.invoked (t.cause now) t.handler s.clock (t.signal now s₁).ints
            (t.signal now s₁).errs :: l, ?_, ?_⟩
          · rw [hlog, hlog₂, List.reverse_cons, List.append_assoc]
            rfl
          · rw [moves, List.filterMap_cons, t.move]
            exact .cons le_rfl (hmove _) (hruns.of_le hclock₂)

end

section

variable {beh : Behaviour RbMem} {s s' : Svc RbMem}

/-- The status and the queue are the same. -/
def SameQueue (s s' : Svc RbMem) : Prop :=
  s'.status = s.status ∧ s'.syncHandlers = s.syncHandlers

theorem SameQueue.trans {s₁ s₂ s₃ : Svc RbMem} (h₁ : SameQueue s₁ s₂) (h₂ : SameQueue s₂ s₃) :
    SameQueue s₁ s₃ :=
  ⟨h₂.1.trans h₁.1, h₂.2.trans h₁.2⟩

/-- A handler called while the service stops does not post. -/
theorem callHandler_sameQueue (hst : s.status = .stopping) {cause : Cause} {hnd : IoHandler}
    (hrun : callHandler beh cause hnd s = some s') : SameQueue s s' := by
  obtain ⟨s₁, hrun₁, hidle⟩ :=
    callHandler_stopping hst beh cause (isSome_of_callHandler hrun)
  obtain rfl := Option.some.inj (hrun.symm.trans hrun₁)
  exact ⟨by rw [hidle.same]; rfl, by rw [hidle.same]; rfl⟩

/-- A part of a stop leaves the queue alone. -/
theorem StopPart.sameQueue (h : StopPart beh s s') (hst : s.status = .stopping) :
    SameQueue s s' := by
  cases h with
  | call cause hnd h => exact callHandler_sameQueue hst h
  | assign | clearDelays | clearEvents | release => exact ⟨rfl, rfl⟩

/-- **`iosvc_prep_stop`** leaves the queue alone. -/
theorem prepStop_sameQueue (hst : s.status = .stopping) (hrun : iosvcPrepStop beh s = some s') :
    SameQueue s s' := by
  have hparts := prepStop_parts hrun
  clear hrun
  induction hparts with
  | refl => exact ⟨rfl, rfl⟩
  | tail _ hpart ih => exact ih.trans (hpart.sameQueue (ih.1.trans hst))

/-- A service without `pollfd`s has no event. -/
theorem Inv.events_of_nil (h : Inv [] s) (hnil : s.pollfds.data = []) :
    s.events = fun _ => none := by
  funext k
  cases hr : s.view k.1 k.2 with
  | none => rw [Svc.events, hr]; rfl
  | some r =>
      obtain ⟨e, he, -⟩ := h.mem_pollfds_iff.mpr
        ((h.present_iff (by simp)).mpr ⟨k.2, by rw [hr]; rfl⟩)
      simp [hnil] at he

/-- **The stop** leaves no delay and no event on the agenda. -/
theorem Moved.prepStop (h : LoopInv s) (hst : s.status = .stopping)
    (hrun : iosvcPrepStop beh s = some s') :
    (∃ l, Moved s s' l) ∧ s'.agenda = ⟨s.syncHandlers.elems, 0, fun _ => none⟩ ∧
      s'.timedHandlersHeap.data = [] := by
  obtain ⟨T, hT⟩ := h.inv.tree
  obtain ⟨s₀, h₀, -⟩ := Option.bind_eq_some_iff.mp hrun
  have hready := h.inv.stopReady h.log hT (by simpa using stopDelayed_callable hst h₀)
  obtain ⟨s₁, s₂, hrun₂, -, hstop₁, hstop, hdelays, -, hpoll, -⟩ := hready.prepStop beh hst
  obtain rfl := Option.some.inj (hrun.symm.trans hrun₂)
  have hagenda : s'.agenda = ⟨s.syncHandlers.elems, 0, fun _ => none⟩ := by
    rw [Svc.agenda, hdelays, (prepStop_sameQueue hst hrun).2,
      (h.log.prepStop h.inv hst hrun).1.events_of_nil hpoll]
    rfl
  have hnodup : ((treeTargets s.nodes s.timed T).filterMap StopTarget.key).Nodup := by
    refine nodup_treeTargets ?_ fun x _ n hn => h.inv.wf x.1 n hn
    exact (List.pairwise_map.mpr hT.ordered).imp fun hlt => (Int.ne_of_lt hlt)
  obtain ⟨events', hdrops, hevents'⟩ := drops_events s.syncHandlers.elems 0 s.events
    hnodup fun t ht => by
      obtain ⟨fd, wt, r, rfl, hr⟩ := h.inv.view_of_target hT ht
      exact ⟨fd, wt, r, r.timer.map Prod.fst, rfl, by rw [Svc.events, hr]; rfl⟩
  have hnone : events' = fun _ => none := by
    funext k
    rw [hevents']
    split
    next => rfl
    next hk =>
      cases hr : s.view k.1 k.2 with
      | none => rw [Svc.events, hr]; rfl
      | some r => exact absurd (h.inv.target_of_view hT hr) hk
  rw [hnone] at hdrops
  obtain ⟨l, hlog, hruns⟩ := (hstop₁.append hstop).agendaRuns hst
    ((drops_delays s.syncHandlers.elems s.timedHandlersHeap.data s.events).append hdrops)
  exact ⟨⟨l, hlog, by rw [hagenda]; exact hruns⟩, hagenda, hdelays⟩

end

end IoEngine
