import IoEngine.Lib.Agenda
import IoEngine.Deadlines
import IoEngine.Posting

/-!
# The Agenda of a Service

What a service owes to its users is an agenda: the posted handlers, to be called in the order in
which they were accepted; the delayed ones, to be called when their delay is over; and at most
one handler for each fd and wait type. `Svc.agenda` reads it off the queue, the heap and the fd
tree, and `Obs.move` says which move on it an entry of the ghost log stands for.

A posted or delayed handler is removed when it has returned, and not when it is called. What a
handler does is therefore said of any agenda with the events of the service (`Worked`): it adds
posts and delays, and it moves on the events.

## Main results

* `Inv.apiCall_worked`: **every public call** works on the agenda by moves.
* `Inv.exec_worked`: so does **every handler** whose calls reach no defect.
-/

namespace IoEngine

open FdTree Svc LawfulFdTree

variable {τ π : Type} [FdTree τ π]

/-! ### Moves -/

/-- The agendas of services: events are under the fd and the wait type. -/
abbrev SvcAgenda : Type :=
  Agenda.Pending IoHandler DelayHeapEntry (ℤ × WaitType) IoHandler ℤ

/-- The moves on them. -/
abbrev SvcMove : Type :=
  Agenda.Timed IoHandler DelayHeapEntry (ℤ × WaitType) IoHandler ℤ

/-- The runs of such moves. -/
abbrev AgendaRuns : ℤ → SvcAgenda → List SvcMove → ℤ → SvcAgenda → Prop :=
  Agenda.Runs DelayHeapEntry.deadline

/-- The events that are pending, each with its deadline if it has one. -/
def Svc.events (s : Svc τ) (k : ℤ × WaitType) : Option (IoHandler × Option ℤ) :=
  (s.view k.1 k.2).map fun r => (r.handler, r.timer.map Prod.fst)

/-- **The agenda of a service.** -/
def Svc.agenda (s : Svc τ) : SvcAgenda :=
  ⟨s.syncHandlers.elems, s.timedHandlersHeap.data, s.events⟩

/-- **The move that a log entry stands for.** A delayed handler that is called is an entry with
this handler. -/
def Obs.move : Obs → Option SvcMove
  | .accepted (.post hnd) time => some (time, .post hnd)
  | .accepted (.delay ent) time => some (time, .delay ent)
  | .accepted (.event fd wt hnd timer) time =>
      some (time, .arm (fd, wt) hnd (timer.map fun t => time + t.2))
  | .invoked .post hnd time _ _ => some (time, .runPost hnd)
  | .invoked (.delay ent .ok) hnd time _ _ => some (time, .runDelay { ent with handler := hnd })
  | .invoked (.delay ent _) hnd time _ _ => some (time, .dropDelay { ent with handler := hnd })
  | .invoked (.event fd wt .timeout _) hnd time _ _ => some (time, .expire (fd, wt) hnd)
  | .invoked (.event fd wt _ _) hnd time _ _ => some (time, .fire (fd, wt) hnd)
  | .dequeued .. => none
  | .cleaned .. => none

/-- The moves of log entries, the oldest of which comes first. -/
def moves (l : List Obs) : List SvcMove :=
  l.filterMap Obs.move

@[simp] theorem moves_append (l₁ l₂ : List Obs) : moves (l₁ ++ l₂) = moves l₁ ++ moves l₂ :=
  List.filterMap_append

/-- What the moves of log entries tell is what the entries tell. -/
theorem moves_filterMap {α : Type}
    {f : Agenda.Action IoHandler DelayHeapEntry (ℤ × WaitType) IoHandler ℤ → Option α}
    {g : Obs → Option α} (h : ∀ o : Obs, (o.move.bind fun m => f m.2) = g o) (l : List Obs) :
    (moves l).filterMap (fun m => f m.2) = l.filterMap g := by
  rw [moves, List.filterMap_filterMap]
  exact List.filterMap_congr fun o _ => h o

/-- The events of the agenda depend on the view only. -/
theorem events_congr {s s' : Svc τ} (h : ∀ fd wt, s'.view fd wt = s.view fd wt) :
    s'.events = s.events :=
  funext fun k => by rw [Svc.events, Svc.events, h]

/-! ### Work -/

/-- **What is done between two states** while a posted or a delayed handler runs: `l` is what the
log says, in this order. The service stays inside `iosvc_run`, if it was. The queue and the heap
have grown by what was accepted, an entry that was due is still the first one, and on the events
there were moves. -/
structure Worked (s s' : Svc τ) (l : List Obs) : Prop where
  log : s'.log = l.reverse ++ s.log
  live : s.Live → s'.Live
  queue : s'.syncHandlers.elems = s.syncHandlers.elems ++ l.filterMap Obs.acceptedPost
  heap : s'.timedHandlersHeap.data.Perm
    (s.timedHandlersHeap.data ++ l.filterMap Obs.acceptedDelay)
  near : ∀ e ∈ l.filterMap Obs.acceptedDelay, e.deadline ≤ s'.clock + (2 ^ 31 - 1)
  ordered : DelaysOrdered s.timedHandlersHeap.data → DelaysOrdered s'.timedHandlersHeap.data
  top : ∀ top, s.timedHandlersHeap.data[0]? = some top → top.deadline ≤ s.clock →
    s'.timedHandlersHeap.data[0]? = some top
  runs : ∀ posts delays, AgendaRuns s.clock ⟨posts, delays, s.events⟩ (moves l) s'.clock
    ⟨posts ++ l.filterMap Obs.acceptedPost, delays + (l.filterMap Obs.acceptedDelay : List _),
      s'.events⟩

namespace Worked

variable {s s₁ s₂ s₃ s' : Svc τ} {l l₁ l₂ : List Obs}

/-- Time does not go back. -/
theorem clock (h : Worked s s' l) : s.clock ≤ s'.clock :=
  (h.runs [] 0).le

/-- Two parts of the work make the work of both. -/
theorem trans (h₁ : Worked s₁ s₂ l₁) (h₂ : Worked s₂ s₃ l₂) : Worked s₁ s₃ (l₁ ++ l₂) where
  log := by rw [h₂.log, h₁.log, List.reverse_append, List.append_assoc]
  live := h₂.live ∘ h₁.live
  queue := by rw [h₂.queue, h₁.queue, List.filterMap_append, List.append_assoc]
  heap := by
    rw [List.filterMap_append, ← List.append_assoc]
    exact h₂.heap.trans (h₁.heap.append_right _)
  near := fun e he => by
    rw [List.filterMap_append, List.mem_append] at he
    have hclock := h₂.clock
    rcases he with he | he
    · have := h₁.near e he
      omega
    · exact h₂.near e he
  ordered := h₂.ordered ∘ h₁.ordered
  top := fun top htop hdue => h₂.top top (h₁.top top htop hdue) (hdue.trans h₁.clock)
  runs := fun posts delays => by
    have hruns := (h₁.runs posts delays).append (h₂.runs _ _)
    rwa [← moves_append, List.append_assoc, ← List.filterMap_append, Multiset.add_assoc,
      Multiset.coe_add, ← List.filterMap_append] at hruns

/-- Neither the queue nor the heap has changed. -/
theorem of_quiet (hq : s'.syncHandlers = s.syncHandlers)
    (hd : s'.timedHandlersHeap = s.timedHandlersHeap) (hlog : s'.log = l.reverse ++ s.log)
    (hlive : s.Live → s'.Live)
    (hp : l.filterMap Obs.acceptedPost = []) (hn : l.filterMap Obs.acceptedDelay = [])
    (hruns : ∀ posts delays, AgendaRuns s.clock ⟨posts, delays, s.events⟩ (moves l) s'.clock
      ⟨posts, delays, s'.events⟩) : Worked s s' l where
  log := hlog
  live := hlive
  queue := by rw [hq, hp, List.append_nil]
  heap := by rw [hd, hn, List.append_nil]
  near := by simp [hn]
  ordered := by rw [hd]; exact id
  top := by rw [hd]; exact fun _ h _ => h
  runs := fun posts delays => by
    rw [hp, hn, List.append_nil, Multiset.coe_nil, Multiset.add_zero]
    exact hruns posts delays

/-- Nothing has happened to the agenda. -/
theorem of_frame (hq : s'.syncHandlers = s.syncHandlers)
    (hd : s'.timedHandlersHeap = s.timedHandlersHeap) (hlog : s'.log = s.log)
    (hlive : s.Live → s'.Live) (hclock : s.clock ≤ s'.clock)
    (hview : ∀ fd wt, s'.view fd wt = s.view fd wt) : Worked s s' [] :=
  of_quiet hq hd hlog hlive rfl rfl fun _ _ => by
    rw [events_congr hview]
    exact .nil hclock

/-- A move was made on the events. -/
theorem of_move {o : Obs} (act : Agenda.Action IoHandler DelayHeapEntry (ℤ × WaitType) IoHandler ℤ)
    (hq : s'.syncHandlers = s.syncHandlers) (hd : s'.timedHandlersHeap = s.timedHandlersHeap)
    (hlog : s'.log = o :: s.log) (hst : s'.status = s.status) (hclock : s'.clock = s.clock)
    (ho : o.acceptedPost = none ∧ o.acceptedDelay = none) (hact : o.move = some (s.clock, act))
    (hmove : ∀ posts delays, Agenda.Move DelayHeapEntry.deadline s.clock
      ⟨posts, delays, s.events⟩ act ⟨posts, delays, s'.events⟩) : Worked s s' [o] := by
  refine of_quiet hq hd hlog (by rw [Svc.Live, Svc.Live, hst]; exact id) ?_ ?_
    fun posts delays => ?_
  · simp [ho.1]
  · simp [ho.2]
  · have hmoves : moves [o] = [(s.clock, act)] := by simp [moves, hact]
    rw [hmoves]
    exact (hmove posts delays).runs le_rfl hclock.ge

end Worked

/-! ### Calls that run no handler -/

section

variable {s s' : Svc τ}

/-- **Posting** adds to the queue, if it is not refused. -/
theorem worked_of_post (s : Svc τ) (hnd : IoHandler) : ∃ l, Worked s (iosvcPost s hnd).2 l := by
  have hrefl : Worked s s [] := .of_frame rfl rfl rfl id le_rfl fun _ _ => rfl
  unfold iosvcPost
  split
  · exact ⟨[], hrefl⟩
  split
  · exact ⟨[], hrefl⟩
  rcases hp : s.syncHandlers.push hnd s.alloc with ⟨_ | buf, al⟩
  · exact ⟨[], .of_frame rfl rfl rfl id le_rfl fun _ _ => rfl⟩
  · refine ⟨[.accepted (.post hnd) s.clock], rfl, id, push_elems hp, ?_, ?_, id, fun _ h _ => h,
      fun posts delays => ?_⟩
    · exact .of_eq (List.append_nil _).symm
    · simp [Obs.acceptedDelay]
    · show AgendaRuns s.clock _ _ s.clock ⟨posts ++ [hnd], delays + 0, s.events⟩
      rw [Multiset.add_zero]
      exact (Agenda.Move.post hnd).runs le_rfl le_rfl

/-- **Posting with a delay** adds to the heap, if it is not refused. -/
theorem worked_of_postDelay {hnd : IoHandler} {status : Ptr} {ms : Int32} {code : IoErrcode}
    (h : iosvcPostDelay s hnd status ms = some (code, s')) : ∃ l, Worked s s' l := by
  obtain ⟨code₁, s₁, h₁, hcase⟩ := postDelay_cases s hnd status ms
  obtain ⟨rfl, rfl⟩ := Prod.mk.inj (Option.some.inj (h₁.symm.trans h))
  rcases hcase with ⟨-, hsame, -⟩ | ⟨-, -, hms, -, hd⟩
  · rw [hsame]
    exact ⟨[], .of_frame rfl rfl rfl id le_rfl fun _ _ => rfl⟩
  · have hclock : s₁.clock = s.clock := by rw [hd.same]
    have hevents : s₁.events = s.events := by
      rw [hd.same]
      exact events_congr fun _ _ => rfl
    refine ⟨[.accepted (.delay ⟨s.clock + ms.toInt, hnd, status⟩) s.clock], ?_, ?_, ?_, ?_, ?_,
      hd.ordered, fun top htop hdue => postDelay_top h htop hdue, fun posts delays => ?_⟩
    · rw [hd.same]
      rfl
    · rw [hd.same]
      exact id
    · rw [hd.same]
      simp [Obs.acceptedPost]
    · exact hd.perm.trans (List.perm_append_singleton _ _).symm
    · intro e he
      obtain rfl : e = ⟨s.clock + ms.toInt, hnd, status⟩ := by simpa [Obs.acceptedDelay] using he
      have hlt := Int32.toInt_lt ms
      rw [hclock]
      show s.clock + ms.toInt ≤ s.clock + (2 ^ 31 - 1)
      omega
    · have hmove : Agenda.Move DelayHeapEntry.deadline s.clock ⟨posts, delays, s.events⟩
          (.delay ⟨s.clock + ms.toInt, hnd, status⟩)
          ⟨posts, ⟨s.clock + ms.toInt, hnd, status⟩ ::ₘ delays, s.events⟩ :=
        .delay (show s.clock ≤ s.clock + ms.toInt by omega)
      have hadd : delays + (↑[(⟨s.clock + ms.toInt, hnd, status⟩ : DelayHeapEntry)] : Multiset _) =
          ⟨s.clock + ms.toInt, hnd, status⟩ ::ₘ delays := by
        rw [Multiset.coe_singleton, Multiset.add_comm, Multiset.singleton_add]
      rw [hclock, hevents]
      show AgendaRuns _ _ _ _ ⟨posts ++ [], delays + (↑[(⟨s.clock + ms.toInt, hnd, status⟩ :
        DelayHeapEntry)] : Multiset _), s.events⟩
      rw [hadd, List.append_nil]
      exact hmove.runs le_rfl le_rfl

/-- Stopping and resetting change nothing but the status. -/
theorem worked_of_stop (s : Svc τ) : Worked s (iosvcStop s).2 [] := by
  unfold iosvcStop
  split
  · exact .of_frame rfl rfl rfl (fun _ => .inr rfl) le_rfl fun _ _ => rfl
  · exact .of_frame rfl rfl rfl id le_rfl fun _ _ => rfl
  · exact .of_frame rfl rfl rfl id le_rfl fun _ _ => rfl

/-- `iosvc_reset` is work without a move. -/
theorem worked_of_reset (s : Svc τ) : Worked s (iosvcReset s).2 [] := by
  unfold iosvcReset
  split
  · exact .of_frame rfl rfl rfl id le_rfl fun _ _ => rfl
  · exact .of_frame rfl rfl rfl id le_rfl fun _ _ => rfl
  next hrun hstop =>
    refine .of_frame rfl rfl rfl (fun hlive => ?_) le_rfl fun _ _ => rfl
    exact absurd hlive (not_or.mpr ⟨hrun, hstop⟩)

/-- A call that is refused leaves the agenda alone. -/
theorem Unchanged.worked (hu : Unchanged s s') : Worked s s' [] := by
  have hs := hu.same
  refine .of_frame (by rw [hs]) (by rw [hs]) (by rw [hs]) (by rw [hs]; exact id) (by rw [hs])
    fun fd wt => ?_
  rw [view_frame (by rw [hs]) (by rw [hs]) hu.timed]

/-- **Scheduling** an event puts it under its fd and wait type. -/
theorem Scheduled.worked {fd : ℤ} {wt : WaitType} {hnd : IoHandler} {status : Ptr}
    {timer : Option (Addr × ℤ)} (hs : Scheduled s s' fd wt hnd status timer) :
    Worked s s' [.accepted (.event fd wt hnd timer) s.clock] := by
  have hsame := hs.same
  refine .of_move _ (by rw [hsame]) (by rw [hsame]) (by rw [hsame]) (by rw [hsame]) (by rw [hsame])
    ⟨rfl, rfl⟩ rfl fun posts delays => ?_
  have hevents : s'.events = Function.update s.events (fd, wt)
      (some (hnd, timer.map fun t => s.clock + t.2)) := by
    funext ⟨fd', wt'⟩
    rw [Svc.events, hs.view, Function.update_apply]
    by_cases hc : fd' = fd ∧ wt' = wt
    · rw [if_pos hc, if_pos (by rw [hc.1, hc.2])]
      cases timer <;> rfl
    · rw [if_neg hc, if_neg fun he => hc (Prod.mk.inj he)]
      rfl
  rw [hevents]
  refine .arm hnd _ (show s.events (fd, wt) = none from ?_)
  rw [Svc.events, hs.vacant]
  rfl

/-- **Dequeueing** an event and calling its handler takes it off the agenda. -/
theorem Dequeued.worked {fd : ℤ} {wt : WaitType} {r : Pending} {now : ℤ} {code : IoErrcode}
    (hd : Dequeued s s' fd wt r now code) (ints : Addr → Int32) (errs : Addr → IoErrcode)
    (hr : s.view fd wt = some r)
    (hcode : code = .timeout → ∃ D p, r.timer = some (D, p) ∧ D ≤ s.clock) :
    Worked s ({ s' with ints := ints }.note
      (.invoked (.event fd wt code now) r.handler s'.clock ints errs))
      [.invoked (.event fd wt code now) r.handler s.clock ints errs] := by
  have hs := hd.same
  have hevents : ({ s' with ints := ints }.note (.invoked (.event fd wt code now) r.handler
      s'.clock ints errs)).events = Function.update s.events (fd, wt) none := by
    funext ⟨fd', wt'⟩
    show (s'.view fd' wt').map _ = _
    rw [hd.view, Function.update_apply]
    by_cases hc : fd' = fd ∧ wt' = wt
    · rw [if_pos hc, if_pos (by rw [hc.1, hc.2])]
      rfl
    · rw [if_neg hc, if_neg fun he => hc (Prod.mk.inj he)]
      rfl
  have hpend : s.events (fd, wt) = some (r.handler, r.timer.map Prod.fst) := by
    rw [Svc.events, hr]
    rfl
  have hclock : s'.clock = s.clock := by rw [hs]
  cases hc : decide (code = .timeout) with
  | false =>
      refine .of_move (.fire (fd, wt) r.handler) (by rw [hs]; rfl) (by rw [hs]; rfl)
        (by rw [hs]; rfl) (by rw [hs]; rfl) hclock ⟨rfl, rfl⟩ ?_ fun posts delays => ?_
      · cases code <;> first | rfl | simp at hc
      · rw [hevents]
        exact .fire hpend
  | true =>
      obtain ⟨D, p, htimer, hdue⟩ := hcode (of_decide_eq_true hc)
      obtain rfl := of_decide_eq_true hc
      refine .of_move (.expire (fd, wt) r.handler) (by rw [hs]; rfl) (by rw [hs]; rfl)
        (by rw [hs]; rfl) (by rw [hs]; rfl) hclock ⟨rfl, rfl⟩ rfl fun posts delays => ?_
      rw [hevents]
      rw [htimer] at hpend
      exact .expire hpend hdue

end

/-! ### The ends of completions -/

section

variable {s s' : Svc τ}

/-- Removing a node touches the tree, the nodes and the `pollfd`s only. -/
theorem cleanup_same {place : π} (h : ioevtCleanupEvt s place = some s') :
    s' = { s with
      asyncHandlers := s'.asyncHandlers, nodes := s'.nodes, pollfds := s'.pollfds } := by
  obtain ⟨⟨a, t⟩, -, h⟩ := Option.bind_eq_some_iff.mp h
  obtain ⟨n, -, h⟩ := Option.bind_eq_some_iff.mp h
  obtain ⟨last, -, h⟩ := Option.bind_eq_some_iff.mp h
  obtain ⟨_, -, h⟩ := Option.bind_eq_some_iff.mp h
  dsimp only at h
  split at h
  · obtain ⟨moved, -, h⟩ := Option.bind_eq_some_iff.mp h
    obtain ⟨q, -, h⟩ := Option.bind_eq_some_iff.mp h
    obtain ⟨c, -, h⟩ := Option.bind_eq_some_iff.mp h
    obtain ⟨b, -, h⟩ := Option.bind_eq_some_iff.mp h
    rw [modifyNode_same h]
  · rw [← Option.some.inj h]

/-- So does the end of a cancelling call. -/
theorem finishCancel_same {place : π} (h : finishCancel s place = some s') :
    s' = { s with
      asyncHandlers := s'.asyncHandlers, nodes := s'.nodes, pollfds := s'.pollfds } := by
  obtain ⟨c, -, h⟩ := Option.bind_eq_some_iff.mp h
  obtain ⟨b, -, h⟩ := Option.bind_eq_some_iff.mp h
  obtain ⟨n, -, h⟩ := Option.bind_eq_some_iff.mp h
  obtain ⟨pollent, -, h⟩ := Option.bind_eq_some_iff.mp h
  split at h
  · exact cleanup_same h
  · rw [← Option.some.inj h]

/-- So does the end of a timeout. -/
theorem finishTimeout_same {a : Addr} (h : finishTimeout s a = some s') :
    s' = { s with
      asyncHandlers := s'.asyncHandlers, nodes := s'.nodes, pollfds := s'.pollfds } := by
  obtain ⟨place, -, h⟩ := Option.bind_eq_some_iff.mp h
  obtain ⟨n, -, h⟩ := Option.bind_eq_some_iff.mp h
  obtain ⟨pollent, -, h⟩ := Option.bind_eq_some_iff.mp h
  split at h
  · exact cleanup_same h
  · rw [← Option.some.inj h]

/-- The end of a completion leaves the agenda alone. -/
theorem Finished.worked {fd : ℤ} (hf : Finished s s' fd)
    (hs : s' = { s with
      asyncHandlers := s'.asyncHandlers, nodes := s'.nodes, pollfds := s'.pollfds }) :
    Worked s s' [] :=
  .of_frame (by rw [hs]) (by rw [hs]) (by rw [hs]) (by rw [hs]; exact id) (by rw [hs])
    fun _ _ => by rw [hf.view]

end

/-! ### Calls and handlers -/

section

variable [LawfulFdTree τ π] {V : List ℤ} {s s' : Svc τ}

/-- **Cancelling** takes the event off the agenda and calls its handler. -/
theorem Inv.cancel_worked (h : Inv V s) {bodyOk : Svc τ → Bool} {body : Svc τ → Option (Svc τ)}
    {fd : ℤ} {wt : WaitType} {code : IoErrcode} (hok : cancelOk bodyOk body s fd wt = true)
    (hrun : iosvcCancel body s fd wt = some (code, s'))
    (hbody : ∀ {s₁ s₂}, Inv (fd :: V) s₁ → s₁.status = .running → bodyOk s₁ = true →
      body s₁ = some s₂ → Inv (fd :: V) s₂ ∧ ∃ l, Worked s₁ s₂ l) :
    ∃ l, Worked s s' l := by
  have hrefl : Worked s s [] := .of_frame rfl rfl rfl id le_rfl fun _ _ => rfl
  by_cases hst : s.status = .running
  swap
  · rw [iosvcCancel, if_pos hst] at hrun
    obtain ⟨-, rfl⟩ := Prod.mk.inj (Option.some.inj hrun)
    exact ⟨[], hrefl⟩
  obtain ⟨place, hp, hl⟩ := h.probe fd
  cases ha : lookup s.asyncHandlers fd with
  | none =>
      rw [ha] at hl
      simp only [iosvcCancel, hst, ne_eq, not_true_eq_false, if_false, hp, hl, bind,
        Option.bind_some, Option.some.injEq, Prod.mk.injEq] at hrun
      rw [← hrun.2]
      exact ⟨[], hrefl⟩
  | some a =>
      cases hd : pendingAt s.nodes a wt with
      | none =>
          rw [ha] at hl
          obtain ⟨n, hn⟩ := h.node_of_lookup ha
          have hno : ((n.getEvtData wt).bind n.deref).any EventData.live = false := by
            have : n.pending wt = none := by simpa [pendingAt, hn] using hd
            rw [EventNode.pending] at this
            cases ho : (n.getEvtData wt).bind n.deref with
            | none => rfl
            | some d => simpa [ho, Option.filter] using this
          simp only [iosvcCancel, hst, ne_eq, not_true_eq_false, if_false, hp, hl, hn, hno, bind,
            Option.bind_some, Bool.false_eq_true, Option.some.injEq, Prod.mk.injEq] at hrun
          rw [← hrun.2]
          exact ⟨[], hrefl⟩
      | some d =>
          simp only [cancelOk, hst, ne_eq, not_true_eq_false, decide_false, Bool.false_or, ha,
            Option.all_some, Bool.and_eq_true] at hok
          obtain ⟨place', s₀, s₁, hstart, hwf, hdeq, rfl, hinv₁, -, heq⟩ :=
            h.cancel_starts hst ha hd hok.1
          rw [hstart] at hok
          simp only [Bool.and_eq_true] at hok
          have hview : s.view fd wt = some (d.pendingWith (entryOf s.timed a wt)) := by
            rw [view_of_lookup ha, hd]
            rfl
          have hstarted := hdeq.worked s₀.ints s₀.errs hview (by simp)
          rw [heq] at hrun
          obtain ⟨s₂, hs₂, hrun⟩ := Option.bind_eq_some_iff.mp hrun
          obtain ⟨s₃, hs₃, hrun⟩ := Option.map_eq_some_iff.mp hrun
          obtain ⟨-, rfl⟩ := Prod.mk.inj hrun
          have hst₁ : s₀.status = .running := by rw [hdeq.same, hst]
          obtain ⟨hinv₂, l, hl₂⟩ := hbody hinv₁ hst₁ hok.2.1 hs₂
          rw [hs₂, Option.any_some] at hok
          obtain ⟨s₃', hs₃', -, hfin⟩ := hinv₂.finishCancel hwf hok.2.2
          obtain rfl := Option.some.inj (hs₃.symm.trans hs₃')
          exact ⟨_, (hstarted.trans hl₂).trans (hfin.worked (finishCancel_same hs₃))⟩

/-- **Every public call** that reaches no defect works on the agenda. -/
theorem Inv.apiCall_worked (h : Inv V s) {bodyOk : Svc τ → Bool} {body : Svc τ → Option (Svc τ)}
    {c : ApiCall} {code : IoErrcode} (hok : callOk bodyOk body s c = true)
    (hrun : IoEngine.apiCall body s c = some (code, s'))
    (hbody : ∀ {V s₁ s₂}, Inv V s₁ → s₁.Live → bodyOk s₁ = true → body s₁ = some s₂ →
      Inv V s₂ ∧ ∃ l, Worked s₁ s₂ l) : ∃ l, Worked s s' l := by
  cases c with
  | post hnd =>
      obtain ⟨-, rfl⟩ := Prod.mk.inj (Option.some.inj hrun)
      exact worked_of_post s hnd
  | postDelay hnd status ms => exact worked_of_postDelay hrun
  | sched event hnd status =>
      obtain ⟨code₁, s₁, hrun₁, -, hcase⟩ := h.sched status hok
      obtain ⟨rfl, rfl⟩ := Prod.mk.inj (Option.some.inj (hrun.symm.trans hrun₁))
      obtain ⟨-, hu, -⟩ | ⟨-, wt, -, hs⟩ := hcase
      · exact ⟨[], hu.worked⟩
      · exact ⟨_, hs.worked⟩
  | schedTimeout event hnd status ms =>
      obtain ⟨code₁, s₁, hrun₁, -, hcase⟩ := h.schedTimeout status ms hok
      obtain ⟨rfl, rfl⟩ := Prod.mk.inj (Option.some.inj (hrun.symm.trans hrun₁))
      obtain ⟨-, hu, -⟩ | ⟨-, wt, -, hs⟩ := hcase
      · exact ⟨[], hu.worked⟩
      · exact ⟨_, hs.worked⟩
  | cancel fd wt =>
      exact h.cancel_worked hok hrun fun h₁ hst hok₁ hs₂ => hbody h₁ (.inl hst) hok₁ hs₂
  | stop =>
      obtain ⟨-, rfl⟩ := Prod.mk.inj (Option.some.inj hrun)
      exact ⟨[], worked_of_stop s⟩
  | reset =>
      obtain ⟨-, rfl⟩ := Prod.mk.inj (Option.some.inj hrun)
      exact ⟨[], worked_of_reset s⟩
  | run =>
      obtain ⟨code', -, hrun⟩ := Option.map_eq_some_iff.mp hrun
      obtain ⟨-, rfl⟩ := Prod.mk.inj hrun
      exact ⟨[], .of_frame rfl rfl rfl id le_rfl fun _ _ => rfl⟩

/-- **Every handler** whose calls reach no defect works on the agenda. -/
theorem Inv.exec_worked (script : Script) (h : Inv V s) (hlive : s.Live)
    (hok : scriptOk script s = true) (hrun : IoEngine.exec script s = some s') :
    Inv V s' ∧ ∃ l, Worked s s' l := by
  induction script generalizing V s s' with
  | ret =>
      obtain rfl := Option.some.inj hrun
      exact ⟨h, [], .of_frame rfl rfl rfl id le_rfl fun _ _ => rfl⟩
  | tick dt rest ih =>
      obtain ⟨hinv, l, hl⟩ := ih (h.frame rfl rfl rfl rfl le_rfl)
        (s := { s with clock := s.clock + dt }) hlive hok hrun
      have htick : Worked s { s with clock := s.clock + dt } [] :=
        .of_frame rfl rfl rfl id (Int.le_add_of_nonneg_right (Int.natCast_nonneg dt)) fun _ _ => rfl
      exact ⟨hinv, _, htick.trans hl⟩
  | user ints errs rest ih =>
      obtain ⟨hinv, l, hl⟩ := ih (h.frame rfl rfl rfl rfl le_rfl)
        (s := { s with ints := ints, errs := errs }) hlive hok hrun
      have huser : Worked s { s with ints := ints, errs := errs } [] :=
        .of_frame rfl rfl rfl id le_rfl fun _ _ => rfl
      exact ⟨hinv, _, huser.trans hl⟩
  | call c inner rest ihInner ihRest =>
      simp only [scriptOk, Bool.and_eq_true] at hok
      obtain ⟨⟨code, s₁⟩, hrun₁, hrun⟩ := Option.bind_eq_some_iff.mp hrun
      rw [hrun₁, Option.all_some] at hok
      obtain ⟨l₁, hl₁⟩ := h.apiCall_worked hok.1 hrun₁
        fun h₁ hlive₁ hok₁ hs₂ => ihInner h₁ hlive₁ hok₁ hs₂
      obtain ⟨code', s₁', hrun₁', hinv₁, hext₁⟩ := h.apiCall (fun _ => hlive) hok.1
        fun h₁ hlive₁ hok₁ => h₁.exec inner hlive₁ hok₁
      obtain ⟨rfl, rfl⟩ := Prod.mk.inj (Option.some.inj (hrun₁.symm.trans hrun₁'))
      obtain ⟨hinv, l, hl⟩ := ihRest hinv₁ (hext₁.live hlive) hok.2 hrun
      exact ⟨hinv, _, hl₁.trans hl⟩

end

end IoEngine
