import IoEngine.Dequeue
import IoEngine.Enqueue
import IoEngine.Handlers

/-!
# The Calls of a Handler

What a handler does to a service in a consistent state, whatever public calls it makes and
whatever the handlers do that these call in turn.

A cancelling call keeps a pointer to the tree slot of its fd while the cancelled event's
handler runs. `finishOk` says when that slot is still good for what the call does with it
afterwards, and `scriptOk` says of a whole handler that all its calls, at any depth,
reach no defect.

## Main results

* `Inv.cancel`: **cancelling** removes exactly the cancelled event, if the slot is good
  when the handler returns.
* `Inv.exec`: **a handler whose calls reach no defect** returns and leaves a consistent
  state, `Extends` the one before.
-/

open BinHeap

namespace IoEngine

open FdTree Svc LawfulFdTree

variable {τ π : Type} [FdTree τ π]

/-! ### The ghost log -/

/-- The last acceptance of an event: its handler, its timer and the time. -/
def lastAccepted (fd : ℤ) (wt : WaitType) : List Obs →
    Option (IoHandler × Option (Addr × ℤ) × ℤ)
  | [] => none
  | .accepted (.event fd' wt' hnd timer) time :: l =>
      if fd' = fd ∧ wt' = wt then some (hnd, timer, time) else lastAccepted fd wt l
  | _ :: l => lastAccepted fd wt l

/-- What a handler finds in the variable of its remaining time. -/
def signalled (code : IoErrcode) (deadline now : ℤ) : Int32 :=
  if code = .timeout then 0 else remainingTime deadline now

/-- Every handler of an event that the log says was called is the one accepted with the
event, and a timed one finds its remaining time in the variable it was accepted with. -/
def Timely : List Obs → Prop
  | [] => True
  | .invoked (.event fd wt code now) hnd time ints _ :: l =>
      (∃ timer t₀, lastAccepted fd wt l = some (hnd, timer, t₀) ∧ t₀ ≤ time ∧
        ∀ p T, timer = some (p, T) → T < 2 ^ 31 ∧ ints p = signalled code (t₀ + T) now) ∧ Timely l
  | _ :: l => Timely l

/-- The log accounts for what is pending: every pending event is as it was last accepted. -/
def Accounted (s : Svc τ) : Prop :=
  ∀ fd wt r, s.view fd wt = some r → ∃ timer t₀,
    lastAccepted fd wt s.log = some (r.handler, timer, t₀) ∧ t₀ ≤ s.clock ∧
      r.timer = timer.map (fun t => (t₀ + t.2, t.1)) ∧ ∀ p T, timer = some (p, T) → T < 2 ^ 31

/-- The log is right about the past and about the present. -/
def LogOk (s : Svc τ) : Prop :=
  Accounted s ∧ Timely s.log

/-- The step of the dispatcher that the log records, if it is one, was made on the live
node of the fd and on a pending event. -/
def Obs.sound : Obs → Bool
  | .dequeued _ _ sound => sound
  | .cleaned _ sound => sound
  | _ => true

/-! ### How a state develops -/

/-- The `pollfd`s with something to report come from the ones before, from the same or a
later position. -/
def Descends (P P' : List PollFd) : Prop :=
  ∀ (j : ℕ) e', P'[j]? = some e' → e'.revents ≠ 0 →
    ∃ j' e, j ≤ j' ∧ P[j']? = some e ∧ e.fd = e'.fd ∧ e.revents = e'.revents

theorem Descends.refl (P : List PollFd) : Descends P P :=
  fun j e' he' _ => ⟨j, e', le_rfl, he', rfl, rfl⟩

/-- What is left to report of a rest is left of the whole. -/
theorem Descends.trans {P₁ P₂ P₃ : List PollFd} (h₁ : Descends P₁ P₂) (h₂ : Descends P₂ P₃) :
    Descends P₁ P₃ := by
  intro j e₃ he₃ hr
  obtain ⟨j₂, e₂, hj₂, he₂, hfd₂, hr₂⟩ := h₂ j e₃ he₃ hr
  obtain ⟨j₁, e₁, hj₁, he₁, hfd₁, hr₁⟩ := h₁ j₂ e₂ he₂ (by rw [hr₂]; exact hr)
  exact ⟨j₁, e₁, hj₂.trans hj₁, he₁, hfd₁.trans hfd₂, hr₁.trans hr₂⟩

/-- The `pollfd`s behind a position with something to report were behind it before. -/
theorem Descends.drop {P P' : List PollFd} (h : Descends P P') {i : ℕ} {e' : PollFd}
    (he' : e' ∈ P'.drop i) (hr : e'.revents ≠ 0) :
    ∃ e ∈ P.drop i, e.fd = e'.fd ∧ e.revents = e'.revents := by
  obtain ⟨j, hj⟩ := List.mem_iff_getElem?.mp he'
  rw [List.getElem?_drop] at hj
  obtain ⟨j', e, hle, he, hfd, hrev⟩ := h (i + j) e' hj hr
  refine ⟨e, List.mem_iff_getElem?.mpr ⟨j' - i, ?_⟩, hfd, hrev⟩
  rw [List.getElem?_drop, show i + (j' - i) = j' by omega, he]

/-- The `pollfd`s stay where they are. -/
theorem Descends.of_polls {P P' : List PollFd} (h : ∀ i : ℕ,
    (P'[i]?).map (fun e => (e.fd, e.revents)) = (P[i]?).map (fun e => (e.fd, e.revents))) :
    Descends P P' := by
  intro j e' he' _
  have := h j
  rw [he', Option.map_some, eq_comm, Option.map_eq_some_iff] at this
  obtain ⟨e, he, hfd⟩ := this
  simp only [Prod.mk.injEq] at hfd
  exact ⟨j, e, le_rfl, he, hfd.1, hfd.2⟩

/-- New `pollfd`s have nothing to report. -/
theorem Descends.of_append {P P' : List PollFd} {tail : List (ℤ × PollMask)}
    (h : P'.map (fun e => (e.fd, e.revents)) = P.map (fun e => (e.fd, e.revents)) ++ tail)
    (hz : ∀ x ∈ tail, x.2 = 0) : Descends P P' := by
  intro j e' he' hr
  have hj : (P.map (fun e => (e.fd, e.revents)) ++ tail)[j]? = some (e'.fd, e'.revents) := by
    rw [← h, List.getElem?_map, he']
    rfl
  by_cases hlt : j < P.length
  · rw [List.getElem?_append_left (by simpa using hlt), List.getElem?_map,
      Option.map_eq_some_iff] at hj
    obtain ⟨e, he, hfd⟩ := hj
    simp only [Prod.mk.injEq] at hfd
    exact ⟨j, e, le_rfl, he, hfd.1, hfd.2⟩
  · rw [List.getElem?_append_right (by simpa using hlt)] at hj
    exact absurd (hz _ (List.mem_of_getElem? hj)) hr

/-- **What any activity of the service does**: time does not go back, the log grows by
sound entries and stays right, the service goes on running unless it is being stopped,
and nothing new is reported ready. -/
structure Extends (s s' : Svc τ) : Prop where
  clock : s.clock ≤ s'.clock
  log : ∃ l, s'.log = l ++ s.log ∧ ∀ o ∈ l, o.sound = true
  status : s'.status = s.status ∨ s.status = .running ∧ s'.status = .stopping
  polls : Descends s.pollfds.data s'.pollfds.data
  logOk : LogOk s → LogOk s'

theorem Extends.refl (s : Svc τ) : Extends s s :=
  ⟨le_rfl, ⟨[], rfl, by simp⟩, .inl rfl, .refl _, id⟩

theorem Extends.trans {s₁ s₂ s₃ : Svc τ} (h₁ : Extends s₁ s₂) (h₂ : Extends s₂ s₃) :
    Extends s₁ s₃ := by
  refine ⟨h₁.clock.trans h₂.clock, ?_, ?_, h₁.polls.trans h₂.polls, h₂.logOk ∘ h₁.logOk⟩
  · obtain ⟨l₁, e₁, hl₁⟩ := h₁.log
    obtain ⟨l₂, e₂, hl₂⟩ := h₂.log
    refine ⟨l₂ ++ l₁, by rw [e₂, e₁, List.append_assoc], fun o ho => ?_⟩
    rcases List.mem_append.mp ho with ho | ho
    · exact hl₂ o ho
    · exact hl₁ o ho
  · rcases h₁.status with h₁ | ⟨h₁, h₁'⟩
    · rw [← h₁]
      exact h₂.status
    · rcases h₂.status with h₂ | ⟨h₂, -⟩
      · exact .inr ⟨h₁, h₂.trans h₁'⟩
      · rw [h₁'] at h₂
        cases h₂

/-! ### The log stays right -/

/-- The log stays right when events only disappear. -/
theorem LogOk.frame {s s' : Svc τ} (h : LogOk s)
    (hview : ∀ fd wt r, s'.view fd wt = some r → s.view fd wt = some r)
    (hlog : s'.log = s.log) (hclock : s.clock ≤ s'.clock) : LogOk s' := by
  refine ⟨fun fd wt r hr => ?_, hlog ▸ h.2⟩
  obtain ⟨timer, t₀, hla, hle, ht, hT⟩ := h.1 fd wt r (hview fd wt r hr)
  exact ⟨timer, t₀, hlog ▸ hla, hle.trans hclock, ht, hT⟩

/-- The log stays right when the handler of a pending event is called and finds its
remaining time. -/
theorem LogOk.invoked {s s' : Svc τ} (h : LogOk s) {fd : ℤ} {wt : WaitType} {r : Pending}
    {code : IoErrcode} {now : ℤ} (hr : s.view fd wt = some r)
    (hview : ∀ fd wt r, s'.view fd wt = some r → s.view fd wt = some r)
    (hlog : s'.log = s.log) (hclock : s.clock ≤ s'.clock)
    (hints : ∀ D p, r.timer = some (D, p) → s'.ints p = signalled code D now) :
    LogOk (s'.note (.invoked (.event fd wt code now) r.handler s'.clock s'.ints s'.errs)) := by
  obtain ⟨hacc, htimely⟩ := h.frame hview hlog hclock
  refine ⟨hacc, ⟨?_, htimely⟩⟩
  obtain ⟨timer, t₀, hla, hle, ht, hT⟩ := h.1 fd wt r hr
  refine ⟨timer, t₀, hlog ▸ hla, hle.trans hclock, fun p T hpT => ⟨hT p T hpT, ?_⟩⟩
  subst hpT
  exact hints _ _ ht

/-- The log stays right when something else than an event is accepted or called. -/
theorem LogOk.note {s : Svc τ} (h : LogOk s) {o : Obs}
    (ho : ∀ fd wt l, lastAccepted fd wt (o :: l) = lastAccepted fd wt l)
    (ht : ∀ l, Timely l → Timely (o :: l)) : LogOk (s.note o) := by
  refine ⟨fun fd wt r hr => ?_, ht _ h.2⟩
  obtain ⟨timer, t₀, hla, hrest⟩ := h.1 fd wt r hr
  exact ⟨timer, t₀, (ho fd wt s.log).trans hla, hrest⟩

/-- The log stays right when an event is accepted. -/
theorem Scheduled.logOk {s s' : Svc τ} {fd : ℤ} {wt : WaitType} {hnd : IoHandler} {status : Ptr}
    {timer : Option (Addr × ℤ)} (hs : Scheduled s s' fd wt hnd status timer)
    (hT : ∀ p T, timer = some (p, T) → T < 2 ^ 31) (h : LogOk s) : LogOk s' := by
  have hlog : s'.log = .accepted (.event fd wt hnd timer) s.clock :: s.log := by rw [hs.same]
  have hclock : s'.clock = s.clock := by rw [hs.same]
  refine ⟨fun fd' wt' r hr => ?_, hlog ▸ h.2⟩
  rw [hs.view] at hr
  rw [hlog, hclock]
  by_cases hc : fd' = fd ∧ wt' = wt
  · rw [if_pos hc] at hr
    obtain rfl := Option.some.inj hr
    exact ⟨timer, s.clock, by simp [lastAccepted, hc.1, hc.2], le_rfl, rfl, hT⟩
  · rw [if_neg hc] at hr
    obtain ⟨timer', t₀, hla, hrest⟩ := h.1 fd' wt' r hr
    refine ⟨timer', t₀, ?_, hrest⟩
    rw [lastAccepted, if_neg fun he => hc ⟨he.1.symm, he.2.symm⟩, hla]

/-! ### Calls that run no handler -/

section

variable {s s' : Svc τ}

/-- **A call that schedules an event** extends the state. -/
theorem Scheduled.extension {fd : ℤ} {wt : WaitType} {hnd : IoHandler} {status : Ptr}
    {timer : Option (Addr × ℤ)} (hs : Scheduled s s' fd wt hnd status timer)
    (hT : ∀ p T, timer = some (p, T) → T < 2 ^ 31) : Extends s s' := by
  refine ⟨by rw [hs.same], ⟨[_], by rw [hs.same]; rfl, by simp [Obs.sound]⟩, .inl (by rw [hs.same]),
    ?_, hs.logOk hT⟩
  obtain ⟨tail, htail, hz⟩ := hs.polls
  exact .of_append htail hz

/-- A call that changes nothing extends the state. -/
theorem Unchanged.extension (hu : Unchanged s s') : Extends s s' := by
  have hs := hu.same
  refine ⟨by rw [hs], ⟨[], by rw [hs]; rfl, by simp⟩, .inl (by rw [hs]), hu.polls ▸ .refl _,
    fun h => h.frame (fun fd wt r hr => ?_) (by rw [hs]) (by rw [hs])⟩
  rwa [view_frame (s := s) (by rw [hs]) (by rw [hs]) hu.timed] at hr

/-- Noting anything but an event. -/
theorem extends_note (s : Svc τ) {o : Obs} (hs : o.sound = true)
    (ho : ∀ fd wt l, lastAccepted fd wt (o :: l) = lastAccepted fd wt l)
    (ht : ∀ l, Timely l → Timely (o :: l)) : Extends s (s.note o) :=
  ⟨le_rfl, ⟨[o], rfl, by simpa using hs⟩, .inl rfl, .refl _, fun h => h.note ho ht⟩

variable [LawfulFdTree τ π] {V : List ℤ}

/-- Posting leaves the events alone. -/
theorem Inv.post (h : Inv V s) (hnd : IoHandler) :
    Inv V (iosvcPost s hnd).2 ∧ Extends s (iosvcPost s hnd).2 := by
  unfold iosvcPost
  split
  · exact ⟨h, .refl s⟩
  split
  · exact ⟨h, .refl s⟩
  have hnext : s.alloc.Grows (s.syncHandlers.push hnd s.alloc).2 := by
    unfold CBuffer.push
    split
    · obtain hm | hm := malloc_eq s.alloc <;> simp only [hm] <;> exact .succ _
    · exact .refl _
  rcases hp : s.syncHandlers.push hnd s.alloc with ⟨_ | buf, al⟩
  · rw [hp] at hnext
    have hu : Unchanged s { s with alloc := al } := ⟨rfl, rfl, rfl, hnext⟩
    exact ⟨h.unchanged hu, hu.extension⟩
  · rw [hp] at hnext
    refine ⟨h.frame rfl rfl rfl rfl hnext.next, le_rfl, ⟨[_], rfl, by simp [Obs.sound]⟩, .inl rfl,
      .refl _, fun hl => ?_⟩
    exact LogOk.note (s := { s with syncHandlers := buf, alloc := al })
      (hl.frame (fun _ _ _ => id) rfl le_rfl) (fun _ _ _ => rfl) (fun _ => id)

/-- Posting with a delay leaves the events alone. -/
theorem Inv.postDelay (h : Inv V s) (hnd : IoHandler) (status : Ptr) (ms : Int32) :
    ∃ code s', iosvcPostDelay s hnd status ms = some (code, s') ∧ Inv V s' ∧ Extends s s' := by
  unfold iosvcPostDelay
  split
  · exact ⟨_, _, rfl, h, .refl s⟩
  split
  · exact ⟨_, _, rfl, h, .refl s⟩
  have hnext := emplaceBack_grows s.timedHandlersHeap s.alloc
  rcases hp : s.timedHandlersHeap.emplaceBack s.alloc with ⟨_ | heap, al⟩
  · rw [hp] at hnext
    have hu : Unchanged s { s with alloc := al } := ⟨rfl, rfl, rfl, hnext⟩
    exact ⟨_, _, rfl, h.unchanged hu, hu.extension⟩
  · rw [hp] at hnext
    have hlen : heap.data.length = s.timedHandlersHeap.data.length + 1 := by
      rw [emplaceBack_data hp]
      simp
    have hswap : SwapSpec id delayHpEntSwp fun _ => True := fun l i j _ _ _ =>
      ⟨_, rfl, trivial, rfl⟩
    have hidx : heap.data.length - 1 < (heap.data.set (heap.data.length - 1)
        ⟨s.currentTime + ms.toInt, hnd, status⟩).length := by
      rw [List.length_set]
      omega
    obtain ⟨l, hl, -⟩ := heapSiftUpIdx_total delayHpEntLt hswap _ trivial hidx
    simp only [hl, bind, Option.bind_some]
    refine ⟨_, _, rfl, h.frame rfl rfl rfl rfl hnext.next, le_rfl, ⟨[_], rfl, by simp [Obs.sound]⟩,
      .inl rfl, .refl _, fun hlog => ?_⟩
    exact LogOk.note (s := { s with timedHandlersHeap := { heap with data := l }, alloc := al })
      (hlog.frame (fun _ _ _ => id) rfl le_rfl) (fun _ _ _ => rfl) (fun _ => id)

end

/-! ### Cancelling -/

/-- The fd has a node without a pending event. -/
def vacant (s : Svc τ) (fd : ℤ) : Bool :=
  match (lookup s.asyncHandlers fd).bind s.nodes with
  | none => false
  | some n => decide (n.mask = 0)

/-- The node of a descriptor is vacant if nothing is pending in it. -/
theorem vacant_eq {s : Svc τ} {fd : ℤ} {a : Addr} {n : EventNode}
    (ha : lookup s.asyncHandlers fd = some a) (hn : s.nodes a = some n) :
    vacant s fd = decide (n.mask = 0) := by
  simp [vacant, ha, hn]

/-- A descriptor without a node has no vacant one. -/
theorem vacant_of_absent {s : Svc τ} {fd : ℤ} (h : lookup s.asyncHandlers fd = none) :
    vacant s fd = false := by
  simp [vacant, h]

/-- **The node that a completion of `fd` ends with is good**: it is live; if it has no event
left, it is the fd's own and its extraction repairs the tree, and otherwise no node of the
fd is left without an event. -/
def nodeOk (s : Svc τ) (b : Addr) (fd : ℤ) : Bool :=
  match s.nodes b with
  | some n =>
      if n.mask = 0 then
        decide (lookup s.asyncHandlers fd = some b) && extractOk s.asyncHandlers fd
      else !vacant s fd
  | none => false

/-- **The slot that `iosvc_cancel` holds is good** when the handler returns: it holds a good
node. -/
def finishOk (s : Svc τ) (place : π) (fd : ℤ) : Bool :=
  match load s.asyncHandlers place with
  | some (some b) => nodeOk s b fd
  | _ => false

/-- What the end of a completion does: nothing to the events, and nothing to other fds. -/
structure Finished (s s' : Svc τ) (fd : ℤ) : Prop where
  view : s'.view = s.view
  lookup : ∀ fd', fd' ≠ fd → lookup s'.asyncHandlers fd' = lookup s.asyncHandlers fd'
  extension : Extends s s'

/-- Dequeueing an event reaches no defect: an entry inside the heap can be brought to the
root, since no deadline is negative. -/
def dequeueOk (s : Svc τ) (a : Addr) (wt : WaitType) : Bool :=
  match pendingAt s.nodes a wt with
  | none => true
  | some d => decide (0 ≤ d.ddlHeapIdx → SentinelOk s.timed d.ddlHeapIdx.toNat)

/-- The slot that `iosvc_cancel` finds, and the state in which the cancelled event's handler
starts; `none` if there is nothing to cancel. -/
def cancelStarts (s : Svc τ) (fd : ℤ) (wt : WaitType) : Option (π × Svc τ) := do
  if s.status ≠ .running then none
  let place ← rbProbe s.asyncHandlers fd
  let a ← lookup s.asyncHandlers fd
  let _ ← pendingAt s.nodes a wt
  let (hnd, s) ← iosvcDequeue s a wt 0 .cancelled
  some (place, s.note (.invoked (.event fd wt .cancelled 0) hnd s.clock s.ints s.errs))

/-- A cancelling call reaches no defect: it is refused, or neither its dequeue, nor the handler,
nor what it does with the slot once the handler has returned does. -/
def cancelOk (bodyOk : Svc τ → Bool) (body : Svc τ → Option (Svc τ)) (s : Svc τ) (fd : ℤ)
    (wt : WaitType) : Bool :=
  decide (s.status ≠ .running) ||
    ((lookup s.asyncHandlers fd).all fun a => dequeueOk s a wt) &&
      match cancelStarts s fd wt with
      | none => true
      | some (place, s) => bodyOk s && (body s).any fun s => finishOk s place fd

section

variable {s s' : Svc τ}

/-- The log stays right, and nothing else happens, when a pending event is dequeued and its
handler is called. -/
theorem Dequeued.extension {fd : ℤ} {wt : WaitType} {r : Pending} {now : ℤ} {code : IoErrcode}
    (hd : Dequeued s s' fd wt r now code) (hr : s.view fd wt = some r) (hcode : code ≠ .timeout) :
    Extends s (s'.note (.invoked (.event fd wt code now) r.handler s'.clock s'.ints s'.errs)) := by
  have hs := hd.same
  refine ⟨by rw [hs]; exact le_rfl, ⟨[_], by rw [hs]; rfl, by simp [Obs.sound]⟩,
    .inl (by rw [hs]; rfl), .of_polls hd.polls, fun h => h.invoked hr (fun fd' wt' r' hr' => ?_)
      (by rw [hs]) (by rw [hs]) fun D p ht => ?_⟩
  · rw [hd.view] at hr'
    split at hr'
    · cases hr'
    · exact hr'
  · rw [hd.ints, ht, signalled, if_neg hcode]
    exact Function.update_self ..

/-- Cleaning up does not touch any event. -/
theorem Cleaned.extension {fd : ℤ} (hc : Cleaned s s' fd) : Extends s s' := by
  have hs := hc.same
  refine ⟨by rw [hs], ⟨[], by rw [hs]; rfl, by simp⟩, .inl (by rw [hs]), ?_,
    fun h => h.frame (fun fd wt r hr => by rwa [hc.view] at hr) (by rw [hs]) (by rw [hs])⟩
  obtain ⟨i, last, hi, hlast, hP⟩ := hc.polls
  obtain ⟨e, he, -⟩ := Option.map_eq_some_iff.mp hi
  have hlt := (List.getElem?_eq_some_iff.mp he).1
  rw [List.getLast?_eq_getElem?] at hlast
  intro j e' he' _
  rw [hP, getElem?_fillHole last hlt] at he'
  split at he'
  next hj =>
    split at he'
    next =>
      obtain rfl := Option.some.inj he'
      exact ⟨_, _, hj.le, hlast, rfl, rfl⟩
    next => exact ⟨j, e', le_rfl, he', rfl, rfl⟩
  next => cases he'

variable [LawfulFdTree τ π] {V : List ℤ}

/-- Without a vacant node of the fd, it need not be excepted. -/
theorem Inv.of_not_vacant {fd : ℤ} (h : Inv (fd :: V) s) (hv : vacant s fd = false) : Inv V s :=
  { h with
    entry := fun fd' a n ha hn => by
      obtain ⟨e, he, hfd, hev, hne⟩ := h.entry fd' a n ha hn
      refine ⟨e, he, hfd, hev, fun hV => ?_⟩
      by_cases hc : fd' = fd
      · subst hc
        simpa [vacant, ha, hn, hev] using hv
      · exact hne (by simp [hc, hV]) }

/-- **The end of a completion** at a good node: the node is removed when no event is left. -/
theorem Inv.finishNode {fd : ℤ} {place : π} {b : Addr} {n : EventNode} (h : Inv (fd :: V) s)
    (hwf : WfPlace τ place) (hl : load s.asyncHandlers place = some (some b))
    (hn : s.nodes b = some n) (hok : nodeOk s b fd = true) :
    ∃ s', (if n.mask = 0 then ioevtCleanupEvt s place else some s) = some s' ∧ Inv V s' ∧
      Finished s s' fd := by
  simp only [nodeOk, hn] at hok
  by_cases hz : n.mask = 0
  · rw [if_pos hz] at hok ⊢
    simp only [Bool.and_eq_true, decide_eq_true_eq] at hok
    obtain ⟨s', hrun', hinv, hc⟩ := h.cleanup V hok.1 hn (EventNode.mask_eq_zero.mp hz)
      (slot_unique h.tree hwf hl hok.1) hok.2 (fun fd' hm hne => by simpa [hne] using hm)
    refine ⟨s', hrun', hinv, hc.view, fun fd' hne => ?_, hc.extension⟩
    rw [hc.lookup, Function.update_of_ne hne]
  · rw [if_neg hz] at hok ⊢
    exact ⟨s, rfl, h.of_not_vacant (by simpa using hok), rfl, fun _ _ => rfl, .refl s⟩

/-- The `pollfd` of a live node has the bits of its events. -/
theorem Inv.entry_of_node (h : Inv V s) {b : Addr} {n : EventNode} (hn : s.nodes b = some n) :
    ∃ fd e, lookup s.asyncHandlers fd = some b ∧ s.pollfds.data[n.pollfdIdx]? = some e ∧
      e.fd = fd ∧ e.events = n.mask ∧ (fd ∉ V → n.mask ≠ 0) := by
  obtain ⟨fd, hb⟩ := (h.dom b).mp (by simp [hn])
  obtain ⟨e, he, hfd, hev, hne⟩ := h.entry fd b n hb hn
  exact ⟨fd, e, hb, he, hfd, hev, hev ▸ hne⟩

/-- The run of the end of a cancelling call. -/
theorem Inv.finishCancel_eq (h : Inv V s) {place : π} {b : Addr} {n : EventNode}
    (hl : load s.asyncHandlers place = some (some b)) (hn : s.nodes b = some n) :
    finishCancel s place = if n.mask = 0 then ioevtCleanupEvt s place else some s := by
  obtain ⟨fdb, e, -, he, -, heev, -⟩ := h.entry_of_node hn
  simp [IoEngine.finishCancel, hl, hn, he, heev]

/-- **The end of a cancelling call.** -/
theorem Inv.finishCancel {fd : ℤ} {place : π} (h : Inv (fd :: V) s) (hwf : WfPlace τ place)
    (hok : finishOk s place fd = true) :
    ∃ s', finishCancel s place = some s' ∧ Inv V s' ∧ Finished s s' fd := by
  unfold finishOk at hok
  split at hok
  next b hl =>
    cases hn : s.nodes b with
    | none => simp [nodeOk, hn] at hok
    | some n =>
        rw [h.finishCancel_eq hl hn]
        exact h.finishNode hwf hl hn hok
  next => cases hok

/-- Dequeueing an event reaches no defect when it is at the root of the heap or no deadline
is negative. -/
theorem dequeueOk_iff {a : Addr} {wt : WaitType} {d : EventData}
    (hd : pendingAt s.nodes a wt = some d) :
    dequeueOk s a wt = true ↔ (0 ≤ d.ddlHeapIdx → SentinelOk s.timed d.ddlHeapIdx.toNat) := by
  rw [dequeueOk, hd]
  exact decide_eq_true_iff

/-- **The first half of a cancelling call**: up to where the handler starts. -/
theorem Inv.cancel_starts (h : Inv V s) (hst : s.status = .running) {fd : ℤ} {a : Addr}
    {wt : WaitType} {d : EventData} (ha : lookup s.asyncHandlers fd = some a)
    (hd : pendingAt s.nodes a wt = some d) (hok : dequeueOk s a wt = true) :
    ∃ place s₀ s₁, cancelStarts s fd wt = some (place, s₁) ∧ WfPlace τ place ∧
      Dequeued s s₀ fd wt (d.pendingWith (entryOf s.timed a wt)) 0 .cancelled ∧
      s₁ = s₀.note (.invoked (.event fd wt .cancelled 0) d.handler s₀.clock s₀.ints s₀.errs) ∧
      Inv (fd :: V) s₁ ∧ Extends s s₁ ∧ ∀ body, iosvcCancel body s fd wt =
        (body s₁).bind fun s₂ => (IoEngine.finishCancel s₂ place).map fun s₃ => (.ok, s₃) := by
  obtain ⟨place, hp, hl⟩ := h.probe fd
  rw [ha] at hl
  obtain ⟨n, hn, hpend⟩ := Option.bind_eq_some_iff.mp hd
  obtain ⟨hlive, slot, hslot, hdr⟩ := EventNode.pending_eq_some.mp hpend
  obtain ⟨s₀, hrun, hinv, hdeq⟩ := h.dequeue 0 .cancelled ha hd ((dequeueOk_iff hd).mp hok)
  have hview : s.view fd wt = some (d.pendingWith (entryOf s.timed a wt)) := by
    rw [view_of_lookup ha, hd]
    rfl
  obtain ⟨c, hc⟩ := Option.isSome_iff_exists.mp hlive
  refine ⟨place, s₀, _, ?_, probe_wf hp, hdeq, rfl, hinv.frame rfl rfl rfl rfl le_rfl,
    hdeq.extension hview (by simp), fun body => ?_⟩
  · simp [cancelStarts, hst, hp, ha, hd, hrun]
  · simp only [iosvcCancel, hst, ne_eq, not_true_eq_false, if_false, hp, hl, hn, hslot, hdr, bind,
      Option.bind_some, Option.any_some, hlive, if_true, hrun, invoke, hc]
    cases body _ with
    | none => rfl
    | some s₂ =>
        simp only [Option.bind_some]
        cases IoEngine.finishCancel s₂ place <;> rfl

/-- **Cancelling** keeps the service consistent when it reaches no defect. -/
theorem Inv.cancel (h : Inv V s) {bodyOk : Svc τ → Bool} {body : Svc τ → Option (Svc τ)} {fd : ℤ}
    {wt : WaitType} (hok : cancelOk bodyOk body s fd wt = true)
    (hbody : ∀ s₁, Inv (fd :: V) s₁ → s₁.status = .running → bodyOk s₁ = true →
      ∃ s₂, body s₁ = some s₂ ∧ Inv (fd :: V) s₂ ∧ Extends s₁ s₂) :
    ∃ code s', iosvcCancel body s fd wt = some (code, s') ∧ Inv V s' ∧ Extends s s' := by
  by_cases hst : s.status = .running
  swap
  · exact ⟨.invarg, s, by simp [iosvcCancel, hst], h, .refl s⟩
  obtain ⟨place, hp, hl⟩ := h.probe fd
  cases ha : lookup s.asyncHandlers fd with
  | none =>
      rw [ha] at hl
      exact ⟨.noentry, s, by simp [iosvcCancel, hst, hp, hl], h, .refl s⟩
  | some a =>
      rw [ha] at hl
      obtain ⟨n, hn⟩ := h.node_of_lookup ha
      cases hd : pendingAt s.nodes a wt with
      | none =>
          have hno : ((n.getEvtData wt).bind n.deref).any EventData.live = false := by
            have : n.pending wt = none := by simpa [pendingAt, hn] using hd
            rw [EventNode.pending] at this
            cases ho : (n.getEvtData wt).bind n.deref with
            | none => rfl
            | some d => simpa [ho, Option.filter] using this
          exact ⟨.noentry, s, by simp [iosvcCancel, hst, hp, hl, hn, hno], h, .refl s⟩
      | some d =>
          simp only [cancelOk, hst, ne_eq, not_true_eq_false, decide_false, Bool.false_or, ha,
            Option.all_some, Bool.and_eq_true] at hok
          obtain ⟨place, s₀, s₁, hstart, hwf, hdeq, rfl, hinv₁, hext₁, hrun⟩ :=
            h.cancel_starts hst ha hd hok.1
          rw [hstart] at hok
          simp only [Bool.and_eq_true] at hok
          have hst₁ : s₀.status = .running := by rw [hdeq.same, hst]
          obtain ⟨s₂, hs₂, hinv₂, hext₂⟩ := hbody _ hinv₁ hst₁ hok.2.1
          rw [hs₂, Option.any_some] at hok
          obtain ⟨s₃, hs₃, hinv₃, hfin⟩ := hinv₂.finishCancel hwf hok.2.2
          exact ⟨.ok, s₃, by rw [hrun, hs₂, Option.bind_some, hs₃]; rfl, hinv₃,
            (hext₁.trans hext₂).trans hfin.extension⟩

end

/-! ### Scripts -/

/-- A call reaches no defect. -/
def callOk (bodyOk : Svc τ → Bool) (body : Svc τ → Option (Svc τ)) (s : Svc τ) : ApiCall → Bool
  | .sched event hnd _ => enqueueOk s s.alloc event hnd
  | .schedTimeout event hnd _ _ => schedTimeoutOk s event hnd
  | .cancel fd wt => cancelOk bodyOk body s fd wt
  | _ => true

/-- **A handler's calls reach no defect**, nor do those of the handlers they call. -/
def scriptOk : Script → Svc τ → Bool
  | .ret, _ => true
  | .tick dt rest, s => scriptOk rest { s with clock := s.clock + dt }
  | .user ints errs rest, s => scriptOk rest { s with ints := ints, errs := errs }
  | .call c inner rest, s =>
      callOk (scriptOk inner) (exec inner) s c &&
        (apiCall (exec inner) s c).all fun r => scriptOk rest r.2

/-- The service is inside `iosvc_run`. -/
def Svc.Live (s : Svc τ) : Prop :=
  s.status = .running ∨ s.status = .stopping

/-- An extension keeps the service alive. -/
theorem Extends.live {s s' : Svc τ} (h : Extends s s') (hs : s.Live) : s'.Live := by
  rcases h.status with he | ⟨-, he⟩
  · rw [Svc.Live, he]
    exact hs
  · exact .inr he

section

variable [LawfulFdTree τ π] {V : List ℤ} {s : Svc τ}

/-- **A public call** that reaches no defect returns and keeps the service consistent; two
calls depend on whether the service is inside `iosvc_run`. -/
theorem Inv.apiCall (h : Inv V s) {bodyOk : Svc τ → Bool} {body : Svc τ → Option (Svc τ)}
    {c : ApiCall} (hlive : c = .reset ∨ c = .run → s.Live) (hok : callOk bodyOk body s c = true)
    (hbody : ∀ {V s₁}, Inv V s₁ → s₁.Live → bodyOk s₁ = true →
      ∃ s₂, body s₁ = some s₂ ∧ Inv V s₂ ∧ Extends s₁ s₂) :
    ∃ code s', apiCall body s c = some (code, s') ∧ Inv V s' ∧ Extends s s' := by
  cases c with
  | post hnd => exact ⟨_, _, rfl, h.post hnd⟩
  | postDelay hnd status ms => exact h.postDelay hnd status ms
  | sched event hnd status =>
      obtain ⟨code, s', hrun, hinv, ⟨-, hu, -⟩ | ⟨-, wt, -, hs⟩⟩ := h.sched status hok
      · exact ⟨code, s', hrun, hinv, hu.extension⟩
      · exact ⟨code, s', hrun, hinv, hs.extension (by simp)⟩
  | schedTimeout event hnd status ms =>
      obtain ⟨code, s', hrun, hinv, ⟨-, hu, -⟩ | ⟨-, wt, -, hs⟩⟩ := h.schedTimeout status ms hok
      · exact ⟨code, s', hrun, hinv, hu.extension⟩
      · refine ⟨code, s', hrun, hinv, hs.extension fun p T hT => ?_⟩
        obtain ⟨-, rfl⟩ := Prod.mk.inj (Option.some.inj hT)
        exact Int32.toInt_lt _
  | cancel fd wt => exact h.cancel hok fun s₁ h₁ hst => hbody h₁ (.inl hst)
  | stop =>
      refine ⟨(iosvcStop s).1, (iosvcStop s).2, rfl, ?_⟩
      unfold iosvcStop
      split
      next hst =>
        exact ⟨h.frame rfl rfl rfl rfl le_rfl, le_rfl, ⟨[], rfl, by simp⟩, .inr ⟨hst, rfl⟩, .refl _,
          fun hl => hl.frame (fun _ _ _ => id) rfl le_rfl⟩
      next => exact ⟨h, .refl s⟩
      next => exact ⟨h, .refl s⟩
  | reset =>
      refine ⟨.inprogress, s, ?_, h, .refl s⟩
      rcases hlive (.inl rfl) with hst | hst <;> simp [IoEngine.apiCall, iosvcReset, hst]
  | run =>
      refine ⟨.inprogress, s, ?_, h, .refl s⟩
      rcases hlive (.inr rfl) with hst | hst <;> simp [IoEngine.apiCall, runRefused, hst]

/-- **A handler whose calls reach no defect** returns and keeps the service consistent. -/
theorem Inv.exec (script : Script) (h : Inv V s) (hlive : s.Live)
    (hok : scriptOk script s = true) :
    ∃ s', exec script s = some s' ∧ Inv V s' ∧ Extends s s' := by
  induction script generalizing V s with
  | ret => exact ⟨s, rfl, h, .refl s⟩
  | tick dt rest ih =>
      have hext : Extends s { s with clock := s.clock + dt } :=
        ⟨by simp, ⟨[], rfl, by simp⟩, .inl rfl, .refl _,
          fun hl => hl.frame (fun _ _ _ => id) rfl (by simp)⟩
      obtain ⟨s', hrun, hinv, hext'⟩ := ih (h.frame rfl rfl rfl rfl le_rfl)
        (s := { s with clock := s.clock + dt }) (hext.live hlive) hok
      exact ⟨s', hrun, hinv, hext.trans hext'⟩
  | user ints errs rest ih =>
      have hext : Extends s { s with ints := ints, errs := errs } :=
        ⟨le_rfl, ⟨[], rfl, by simp⟩, .inl rfl, .refl _,
          fun hl => hl.frame (fun _ _ _ => id) rfl le_rfl⟩
      obtain ⟨s', hrun, hinv, hext'⟩ := ih (h.frame rfl rfl rfl rfl le_rfl)
        (s := { s with ints := ints, errs := errs }) (hext.live hlive) hok
      exact ⟨s', hrun, hinv, hext.trans hext'⟩
  | call c inner rest ihInner ihRest =>
      simp only [scriptOk, Bool.and_eq_true] at hok
      obtain ⟨code, s₁, hrun₁, hinv₁, hext₁⟩ := h.apiCall (fun _ => hlive) hok.1
        fun h₁ hlive₁ hok₁ => ihInner h₁ hlive₁ hok₁
      rw [hrun₁, Option.all_some] at hok
      obtain ⟨s', hrun, hinv, hext⟩ := ihRest hinv₁ (hext₁.live hlive) hok.2
      refine ⟨s', ?_, hinv, hext₁.trans hext⟩
      simp only [IoEngine.exec, hrun₁, bind, Option.bind_some, hrun]

end

end IoEngine
