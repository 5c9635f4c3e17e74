import IoEngine.Dispatch
import IoEngine.OwnHandlers

/-!
# What a Pass Completes

`Dispatch` says that a pass of the dispatcher is sound. This module says which handlers it
calls, for handlers that keep to their fd: those of the events that are due, each of them
once, and no other one of those that were pending when the pass began.

The dispatcher goes through an array that it shrinks. An entry is done once its fd has been
looked at; the invariant of the pass (`PassInv`) is about the fds that are done, wherever
their entries may be, and says of the others that they are untouched and still ahead.

## Main results

* `Inv.serveEntry`: **one entry** calls the handlers of its due events, and of these only.
* `Inv.servePass`: **a whole pass** ends, and does so for every fd.
-/

open BinHeap

namespace IoEngine

open FdTree Svc LawfulFdTree

/-! ### Completions in the log -/

/-- The completion of an event of `fd` that a log entry records: the code and the handler. -/
def Obs.completion (fd : ℤ) (wt : WaitType) : Obs → Option (IoErrcode × IoHandler)
  | .invoked (.event fd' wt' code _) hnd _ _ _ =>
      if fd' = fd ∧ wt' = wt then some (code, hnd) else none
  | _ => none

/-- The completions of an event, newest first. -/
def completions (fd : ℤ) (wt : WaitType) (log : List Obs) : List (IoErrcode × IoHandler) :=
  log.filterMap (Obs.completion fd wt)

@[simp] theorem completions_nil (fd : ℤ) (wt : WaitType) : completions fd wt [] = [] := rfl

@[simp] theorem completions_append (fd : ℤ) (wt : WaitType) (l₁ l₂ : List Obs) :
    completions fd wt (l₁ ++ l₂) = completions fd wt l₁ ++ completions fd wt l₂ :=
  List.filterMap_append

/-- An accepted call completes nothing. -/
theorem completions_accepted (fd : ℤ) (wt : WaitType) {l : List Obs}
    (h : ∀ o ∈ l, o.isAccepted = true) : completions fd wt l = [] := by
  refine List.filterMap_eq_nil_iff.mpr fun o ho => ?_
  have := h o ho
  cases o <;> simp_all [Obs.isAccepted, Obs.completion]

/-! ### What is due -/

/-- The event is due: the fd is invalid, or one of the bits that belong to the wait type
alone is reported. -/
def PollFd.due (e : PollFd) (wt : WaitType) : Bool :=
  decide (e.revents &&& pollnval ≠ 0) || decide (e.revents &&& dequeueMask wt ≠ 0)

/-- With `POLLNVAL` every event is due. -/
theorem PollFd.due_of_invalid {e : PollFd} (h : e.revents &&& pollnval ≠ 0) (wt : WaitType) :
    e.due wt = true := by
  simp only [PollFd.due, decide_eq_true h, Bool.true_or]

/-- Without `POLLNVAL` an event is due if it is reported. -/
theorem PollFd.due_iff_reported {e : PollFd} (h : e.revents &&& pollnval = 0) {wt : WaitType} :
    e.due wt = true ↔ wt ∈ e.reported := by
  rw [mem_reported]
  simp [PollFd.due, h]

section

variable {τ : Type} {s : Svc τ} {i : ℕ}

/-- The tests of the steps of an entry: an invalid fd has the events completed that are
pending, a valid one those that are reported. -/
theorem test_eq {e e₁ : PollFd} {p : WaitType → Bool} (he₁ : s.pollfds.data[i]? = some e₁)
    (hev : e₁.events = requested p) {test : Svc τ → Option Bool} {wt : WaitType}
    (hm : (test, wt) ∈ e.steps i) :
    test s = some (if e.revents &&& pollnval ≠ 0 then p wt else decide (wt ∈ e.reported)) := by
  unfold PollFd.steps at hm
  split at hm
  next hn =>
    rw [if_pos hn]
    obtain ⟨⟨flag, w⟩, hfw, heq⟩ := List.mem_map.mp hm
    obtain ⟨rfl, rfl⟩ := Prod.mk.inj heq
    simp only [invalidOrder, List.mem_cons, Prod.mk.injEq, List.not_mem_nil, or_false] at hfw
    simp only [he₁, Option.map_some, Option.some.injEq, hev, requested]
    obtain ⟨rfl, rfl⟩ | ⟨rfl, rfl⟩ | ⟨rfl, rfl⟩ := hfw <;> generalize p .read = r <;>
      generalize p .write = w <;> generalize p .exception = x <;> revert r w x <;> decide
  next hn =>
    rw [if_neg hn]
    simp only [readySteps, List.mem_cons, Prod.mk.injEq, List.not_mem_nil, or_false] at hm
    unfold PollFd.reported
    rw [if_neg hn]
    obtain ⟨rfl, rfl⟩ | ⟨rfl, rfl⟩ | ⟨rfl, rfl⟩ := hm
    · cases hasPriority e.revents <;> cases hasRead e.revents <;> cases hasWrite e.revents <;> rfl
    · refine (readDue_eq he₁ hev e.revents).trans ?_
      cases hasPriority e.revents <;> cases hasRead e.revents <;> cases hasWrite e.revents <;> rfl
    · cases hasPriority e.revents <;> cases hasRead e.revents <;> cases hasWrite e.revents <;> rfl

variable (i)

/-- The steps of an entry are for different events. -/
theorem steps_nodup (e : PollFd) :
    ((e.steps i : List (DispatchStep τ)).map Prod.snd).Nodup := by
  unfold PollFd.steps
  split <;> simp [invalidSteps, invalidOrder, readySteps]

/-- There is a step for every event. -/
theorem mem_steps (e : PollFd) (wt : WaitType) :
    wt ∈ (e.steps i : List (DispatchStep τ)).map Prod.snd := by
  unfold PollFd.steps
  split <;> cases wt <;> simp [invalidSteps, invalidOrder, readySteps]

end

/-! ### One entry -/

section

variable {τ π : Type} [FdTree τ π]

/-- What has become of the event of an entry between two states, with the part of the log
that lies between them: if it was pending and due, its handler was called, once and with the
code of the entry; if it was pending and not due, it was left alone; and if it was not
pending, a handler that has come since then was called once at most, and not at all for a
valid fd. -/
structure EventServed (s s' : Svc τ) (e : PollFd) (l : List Obs) (wt : WaitType) : Prop where
  due : ∀ r, s.view e.fd wt = some r → e.due wt = true →
    completions e.fd wt l = [(e.code, r.handler)]
  left : ∀ r, s.view e.fd wt = some r → e.due wt = false →
    completions e.fd wt l = [] ∧ s'.view e.fd wt = some r
  later : s.view e.fd wt = none → (completions e.fd wt l).length ≤ 1 ∧
    (e.revents &&& pollnval = 0 → completions e.fd wt l = [])

/-- The log and the state may go on, as long as it is about other events. -/
theorem EventServed.later_state {s s' s'' : Svc τ} {e : PollFd} {l l' : List Obs} {wt : WaitType}
    (h : EventServed s s' e l wt) (hl : completions e.fd wt l' = completions e.fd wt l)
    (hv : s''.view e.fd wt = s'.view e.fd wt) : EventServed s s'' e l' wt := by
  refine ⟨fun r hr hd => hl.trans (h.due r hr hd), fun r hr hd => ?_, fun hno => ?_⟩
  · exact ⟨hl.trans (h.left r hr hd).1, hv.trans (h.left r hr hd).2⟩
  · rw [hl]
    exact h.later hno

/-- It does not matter from which state on the event is followed, as long as it is the
same. -/
theorem EventServed.earlier_state {s s₁ s' : Svc τ} {e : PollFd} {l : List Obs} {wt : WaitType}
    (h : EventServed s₁ s' e l wt) (hv : s₁.view e.fd wt = s.view e.fd wt) :
    EventServed s s' e l wt :=
  ⟨fun r hr => h.due r (hv.trans hr), fun r hr => h.left r (hv.trans hr),
    fun hno => h.later (hv.trans hno)⟩

/-- The handler has just been called, for an event of the fd. -/
def StartedFor (s : Svc τ) (hnd : IoHandler) (fd : ℤ) : Prop :=
  ∃ wt code now time ints errs log,
    s.log = .invoked (.event fd wt code now) hnd time ints errs :: log

/-- **A handler called for an event of an fd keeps to this fd.** -/
def KeepsToFd (beh : Behaviour τ) : Prop :=
  ∀ hnd s fd, StartedFor s hnd fd → (beh hnd s).own fd = true

/-- The handler of an event, called by the dispatcher, sets no negative deadline. -/
def startTimed (beh : Behaviour τ) (s : Svc τ) (fd : ℤ) (wt : WaitType) (now : ℤ)
    (code : IoErrcode) : Bool :=
  (lookup s.asyncHandlers fd).all fun a =>
    (serveStarts s a fd wt now code).all fun r => (beh r.1 r.2).timeoutsOk r.2

/-- No handler that the steps of an entry call sets a negative deadline. -/
def stepsTimed (beh : Behaviour τ) (place : π) (fd : ℤ) (now : ℤ) (code : IoErrcode) :
    List (DispatchStep τ) → Svc τ → Bool
  | [], _ => true
  | (test, wt) :: rest, s =>
      (test s).all fun due => (!due || startTimed beh s fd wt now code) &&
        (serveIf due beh s place fd wt now code).all fun s =>
          stepsTimed beh place fd now code rest s

/-- No handler of the entry at a position sets a negative deadline. -/
def entryTimed (beh : Behaviour τ) (now : ℤ) (s : Svc τ) (i : ℕ) : Bool :=
  (s.pollfds.data[i]?).all fun e => (rbProbe s.asyncHandlers e.fd).all fun place =>
    stepsTimed beh place e.fd now e.code (e.steps i) s

/-- A property of the entries that a pass looks at, as far as the fuel goes. -/
def eachEntry (P : Svc τ → ℕ → Bool) (beh : Behaviour τ) (now : ℤ) : ℕ → Svc τ → ℕ → Bool
  | 0, _, _ => true
  | fuel + 1, s, i =>
      P s i && (dispatchEntry beh s i now).all fun r =>
        eachEntry P beh now fuel r.2 (if r.1 then i + 1 else i)

/-- **No handler that a pass calls sets a negative deadline**, as far as the fuel goes. -/
def passTimed (beh : Behaviour τ) (now : ℤ) (fuel : ℕ) (s : Svc τ) (i : ℕ) : Bool :=
  eachEntry (entryTimed beh now) beh now fuel s i

/-- What holds of any entry holds of those of a pass. -/
theorem eachEntry_of_forall {P : Svc τ → ℕ → Bool} (h : ∀ s i, P s i = true) (beh : Behaviour τ)
    (now : ℤ) (fuel : ℕ) (s : Svc τ) (i : ℕ) : eachEntry P beh now fuel s i = true := by
  induction fuel generalizing s i with
  | zero => rfl
  | succ fuel ih =>
      simp only [eachEntry, h, ih, Bool.true_and, Option.all_eq_true]
      simp

/-- It is enough to look at the entries of a pass that returns. -/
theorem eachEntry_of_ends {P : Svc τ → ℕ → Bool} {beh : Behaviour τ} {now : ℤ} {k : ℕ}
    {s : Svc τ} {i : ℕ} (hends : (dispatchLoop beh now k s i).isSome = true)
    (h : eachEntry P beh now k s i = true) (fuel : ℕ) : eachEntry P beh now fuel s i = true := by
  induction k generalizing s i fuel with
  | zero => cases hends
  | succ k ih =>
      cases fuel with
      | zero => rfl
      | succ fuel =>
          simp only [eachEntry, Bool.and_eq_true] at h ⊢
          refine ⟨h.1, ?_⟩
          cases hrun : dispatchEntry beh s i now with
          | none => rfl
          | some r =>
              have hi : i < s.pollfds.data.length := by
                by_contra hi
                have hnone := List.getElem?_eq_none (Nat.le_of_not_lt hi)
                simp [dispatchEntry, hnone] at hrun
              rw [dispatchLoop, if_pos hi, hrun] at hends
              rw [hrun] at h
              exact ih hends h.2 fuel

/-- Handlers that make no calls. -/
def Quieting (beh : Behaviour τ) : Prop :=
  ∀ hnd s, (beh hnd s).quiet = true

/-- Quiet handlers keep to their descriptor. -/
theorem Quieting.keepsToFd {beh : Behaviour τ} (h : Quieting beh) : KeepsToFd beh :=
  fun hnd s _ _ => Script.own_of_quiet (h hnd s)

/-- Quiet handlers set no deadline. -/
theorem Quieting.startTimed {beh : Behaviour τ} (h : Quieting beh) (s : Svc τ) (fd : ℤ)
    (wt : WaitType) (now : ℤ) (code : IoErrcode) : startTimed beh s fd wt now code = true := by
  simp only [IoEngine.startTimed, Option.all_eq_true]
  intro a _ r _
  exact Script.timeoutsOk_of_quiet (h r.1 r.2) r.2

/-- Quiet handlers set no deadline in an entry. -/
theorem Quieting.stepsTimed {beh : Behaviour τ} (h : Quieting beh) (place : π) (fd now : ℤ)
    (code : IoErrcode) (steps : List (DispatchStep τ)) (s : Svc τ) :
    stepsTimed beh place fd now code steps s = true := by
  induction steps generalizing s with
  | nil => rfl
  | cons st rest ih =>
      simp only [IoEngine.stepsTimed, h.startTimed, ih, Bool.or_true, Bool.true_and,
        Option.all_eq_true]
      simp

/-- Quiet handlers set no deadline at all. -/
theorem Quieting.passTimed {beh : Behaviour τ} (h : Quieting beh) (now : ℤ) (fuel : ℕ) (s : Svc τ)
    (i : ℕ) : passTimed beh now fuel s i = true := by
  refine eachEntry_of_forall (fun s i => ?_) beh now fuel s i
  simp only [entryTimed, h.stepsTimed, Option.all_eq_true]
  simp

/-- What completing one event of `fd` does, when its handler keeps to the fd. -/
structure ServedOne (s s' : Svc τ) (fd : ℤ) (wt : WaitType) (code : IoErrcode) (r : Pending) :
    Prop where
  tree : s'.asyncHandlers = s.asyncHandlers
  status : s'.status = s.status
  polls : s'.pollfds.data.map (fun e => (e.fd, e.revents)) =
    s.pollfds.data.map (fun e => (e.fd, e.revents))
  others : ∀ fd' w, fd' ≠ fd → s'.view fd' w = s.view fd' w
  kept : ∀ w r', w ≠ wt → s.view fd w = some r' → s'.view fd w = some r'
  log : ∃ l, s'.log = l ++ s.log ∧ (∀ o ∈ l, o.sound = true) ∧ Follows s s' l ∧
    ∀ fd' w, completions fd' w l = if fd' = fd ∧ w = wt then [(code, r.handler)] else []

/-- What may be completed may be dequeued. -/
theorem dequeueOk_of_serveOk {beh : Behaviour τ} {s : Svc τ} {fd : ℤ} {wt : WaitType} {now : ℤ}
    {code : IoErrcode} (h : serveOk beh s fd wt now code = true) :
    (lookup s.asyncHandlers fd).all (dequeueOk s · wt) = true := by
  simp only [serveOk, Option.all_eq_true, Bool.and_eq_true] at h ⊢
  exact fun a ha => (h a ha).1

/-- **Completing a pending event** with a handler that keeps to its fd. -/
theorem Inv.serve_own [LawfulFdTree τ π] {V : List ℤ} {s : Svc τ} (h : Inv V s)
    {beh : Behaviour τ} (hbeh : KeepsToFd beh) {fd : ℤ} {wt : WaitType} {place : π} {r : Pending}
    {code : IoErrcode} (now : ℤ)
    (hok : (lookup s.asyncHandlers fd).all (IoEngine.dequeueOk s · wt) = true)
    (hr : s.view fd wt = some r)
    (hl : load s.asyncHandlers place = some (lookup s.asyncHandlers fd)) (hcode : code ≠ .timeout) :
    ∃ s', IoEngine.serve beh s place fd wt now code = some s' ∧ Inv (fd :: V) s' ∧
      ServedOne s s' fd wt code r ∧
      (startTimed beh s fd wt now code = true → DeadlinesOk s → DeadlinesOk s') := by
  obtain ⟨a, ha, hr⟩ := Option.bind_eq_some_iff.mp hr
  obtain ⟨d, hd, rfl⟩ := Option.map_eq_some_iff.mp hr
  rw [ha, Option.all_some] at hok
  obtain ⟨s₁, s₂, hstart, hdeq, rfl, hinv₂, -, hrun⟩ :=
    h.serve_starts now ha (by rw [hl, ha]) hd hok hcode
  have htree₁ : s₁.asyncHandlers = s.asyncHandlers := by rw [hdeq.same]; rfl
  have hD₁ : DeadlinesOk s → DeadlinesOk s₁ := by
    intro hD fd' w r D p hr
    rw [hdeq.view] at hr
    split at hr
    · cases hr
    · exact hD fd' w r D p hr
  -- the handler runs in the state that the dequeue has left
  have hstarted : StartedFor (s₁.note (.invoked (.event fd wt code now) d.handler s₁.clock
      s₁.ints s₁.errs)) d.handler fd := ⟨wt, code, now, _, _, _, s₁.log, rfl⟩
  obtain ⟨s₃, hrun₃, hinv₃, hr₃, hD₃⟩ := hinv₂.exec_own _
    (show lookup s₁.asyncHandlers fd = some a by rw [htree₁, ha]) (hbeh _ _ _ hstarted)
  obtain ⟨l, hlog, hacc, hfollow⟩ := hr₃.log
  have hlog₁ : s₁.log = .dequeued fd wt true :: s.log := by rw [hdeq.same]; rfl
  refine ⟨s₃, by rw [hrun, hrun₃], hinv₃, ⟨hr₃.tree.trans htree₁, ?_, ?_,
    fun fd' w hne => ?_, fun w r' hne hr' => hr₃.kept w r' ?_,
    l ++ [.invoked (.event fd wt code now) d.handler s₁.clock s₁.ints s₁.errs,
      .dequeued fd wt true], ?_, fun o ho => ?_, Follows.trans (fun fd' w => ?_) hfollow,
    fun fd' w => ?_⟩, fun hT hD => hD₃ ?_ (hD₁ hD)⟩
  · have hst : s₁.status = s.status := by rw [hdeq.same]; rfl
    exact hr₃.status.trans hst
  · refine hr₃.polls.trans (List.ext_getElem? fun j => ?_)
    simp only [List.getElem?_map]
    exact hdeq.polls j
  · have hv := hdeq.view fd' w
    rw [if_neg fun hc => hne hc.1] at hv
    exact (hr₃.others fd' w hne).trans hv
  · have hv := hdeq.view fd w
    rw [if_neg fun hc => hne hc.2] at hv
    exact hv.trans hr'
  · rw [hlog]
    simp only [Svc.note, hlog₁, List.append_assoc, List.cons_append, List.nil_append]
  · simp only [List.mem_append, List.mem_cons, List.not_mem_nil, or_false] at ho
    rcases ho with ho | rfl | rfl
    · have := hacc o ho
      cases o <;> simp_all [Obs.isAccepted, Obs.sound]
    · rfl
    · rfl
  · have hv := hdeq.view fd' w
    simp only [Svc.handlerAt, pendingAfter]
    by_cases hc : fd' = fd ∧ w = wt
    · rw [if_pos hc] at hv
      rw [if_pos ⟨hc.1.symm, hc.2.symm⟩]
      exact congrArg (Option.map Pending.handler) hv
    · rw [if_neg hc] at hv
      rw [if_neg fun h => hc ⟨h.1.symm, h.2.symm⟩]
      exact congrArg (Option.map Pending.handler) hv
  · rw [completions_append, completions_accepted fd' w hacc]
    by_cases hc : fd' = fd ∧ w = wt
    · obtain ⟨rfl, rfl⟩ := hc
      simp [completions, Obs.completion, EventData.pendingWith]
    · have hc' : ¬(fd = fd' ∧ wt = w) := fun h => hc ⟨h.1.symm, h.2.symm⟩
      simp only [completions, List.filterMap_cons, Obs.completion, if_neg hc, if_neg hc']
      rfl
  · simpa only [startTimed, ha, hstart, Option.all_some] using hT

/-- What holds between the steps of an entry `e`, begun in the state `s₀`. -/
structure ServeInv [LawfulFdTree τ π] (s₀ : Svc τ) (i : ℕ) (e : PollFd)
    (steps : List (DispatchStep τ)) (s : Svc τ) : Prop where
  inv : Inv [e.fd] s
  tree : s.asyncHandlers = s₀.asyncHandlers
  status : s.status = s₀.status
  polls : s.pollfds.data.map (fun e => (e.fd, e.revents)) =
    s₀.pollfds.data.map (fun e => (e.fd, e.revents))
  others : ∀ fd' wt, fd' ≠ e.fd → s.view fd' wt = s₀.view fd' wt
  rest : steps <:+ e.steps i
  /-- what has not been looked at is as it was -/
  ahead : ∀ wt ∈ steps.map Prod.snd, ∀ r, s₀.view e.fd wt = some r → s.view e.fd wt = some r
  log : ∃ l, s.log = l ++ s₀.log ∧ (∀ o ∈ l, o.sound = true) ∧ Follows s₀ s l ∧
    (∀ fd' wt, fd' ≠ e.fd → completions fd' wt l = []) ∧
    (∀ wt ∈ steps.map Prod.snd, completions e.fd wt l = []) ∧
    ∀ wt, wt ∉ steps.map Prod.snd → EventServed s₀ s e l wt

variable [LawfulFdTree τ π] {s₀ s : Svc τ} {i : ℕ} {e : PollFd}

/-- The entry of the fd is where it was. -/
theorem ServeInv.entry {steps : List (DispatchStep τ)} (h : ServeInv s₀ i e steps s)
    (he : s₀.pollfds.data[i]? = some e) :
    ∃ e₁, s.pollfds.data[i]? = some e₁ ∧ e₁.fd = e.fd ∧ e₁.revents = e.revents ∧
      e₁.events = requested fun wt => (s.view e.fd wt).isSome := by
  have hi := congrArg (fun l => l[i]?) h.polls
  simp only [List.getElem?_map, he, Option.map_some] at hi
  obtain ⟨e₁, he₁, heq⟩ := Option.map_eq_some_iff.mp hi
  obtain ⟨hfd, hr⟩ := Prod.mk.inj heq
  obtain ⟨-, -, -, -, -, -, hreq, -⟩ := h.inv.entry_at he₁
  exact ⟨e₁, he₁, hfd, hr, hfd ▸ hreq⟩

/-- The other entries are untouched. -/
theorem ServeInv.behind {steps : List (DispatchStep τ)} (h₀ : Inv [] s₀)
    (h : ServeInv s₀ i e steps s) {j : ℕ} (he : s₀.pollfds.data[i]? = some e) (hj : j ≠ i) :
    s.pollfds.data[j]? = s₀.pollfds.data[j]? := by
  have hmap := congrArg (fun l => l[j]?) h.polls
  simp only [List.getElem?_map] at hmap
  cases he₀ : s₀.pollfds.data[j]? with
  | none =>
      rw [he₀, Option.map_none, Option.map_eq_none_iff] at hmap
      exact hmap
  | some e₀ =>
      rw [he₀, Option.map_some] at hmap
      obtain ⟨e₁, he₁, heq⟩ := Option.map_eq_some_iff.mp hmap
      obtain ⟨hfd, hr⟩ := Prod.mk.inj heq
      have hne : e₀.fd ≠ e.fd := fun hc => hj (h₀.fd_inj he₀ he hc)
      obtain ⟨-, -, -, -, -, -, hreq₀, -⟩ := h₀.entry_at he₀
      obtain ⟨-, -, -, -, -, -, hreq₁, -⟩ := h.inv.entry_at he₁
      have hev : e₁.events = e₀.events := by
        rw [hreq₀, hreq₁, hfd]
        congr 1
        funext wt
        rw [h.others _ wt hne]
      rw [he₁]
      cases e₀
      cases e₁
      simp_all

section

variable {test : Svc τ → Option Bool} {wt : WaitType} {rest : List (DispatchStep τ)}

/-- The test of the next step. -/
theorem ServeInv.test_eq (h : ServeInv s₀ i e ((test, wt) :: rest) s)
    (he : s₀.pollfds.data[i]? = some e) :
    test s = some (if e.revents &&& pollnval ≠ 0 then (s.view e.fd wt).isSome
      else decide (wt ∈ e.reported)) := by
  obtain ⟨e₁, he₁, -, -, hev⟩ := h.entry he
  exact IoEngine.test_eq he₁ hev (h.rest.subset List.mem_cons_self)

/-- The next step is for another event than those after it. -/
theorem ServeInv.fresh (h : ServeInv s₀ i e ((test, wt) :: rest) s) : wt ∉ rest.map Prod.snd := by
  have hnd := (steps_nodup i e).sublist (h.rest.map Prod.snd).sublist
  exact (List.nodup_cons.mp hnd).1

/-- A step whose test fails: the event was not due, or it was not there. -/
theorem ServeInv.skip (h : ServeInv s₀ i e ((test, wt) :: rest) s)
    (he : s₀.pollfds.data[i]? = some e) (ht : test s = some false) : ServeInv s₀ i e rest s := by
  rw [h.test_eq he, Option.some.injEq] at ht
  obtain ⟨l, hl, hsound, hfollow, hothers, hnone, hdone⟩ := h.log
  have hmem : wt ∈ ((test, wt) :: rest).map Prod.snd := by simp
  refine ⟨h.inv, h.tree, h.status, h.polls, h.others,
    (List.suffix_cons _ _).trans h.rest, fun w hw => h.ahead w (List.mem_cons_of_mem _ hw),
    l, hl, hsound, hfollow, hothers, fun w hw => hnone w (List.mem_cons_of_mem _ hw),
    fun w hw => ?_⟩
  by_cases hwt : w = wt
  · subst hwt
    refine ⟨fun r hr hdue => ?_, fun r hr _ => ⟨hnone w hmem, h.ahead w hmem r hr⟩, fun _ => ?_⟩
    · split at ht
      next => simp [h.ahead w hmem r hr] at ht
      next hn =>
        rw [PollFd.due_iff_reported (by simpa using hn)] at hdue
        simp [hdue] at ht
    · rw [hnone w hmem]
      exact ⟨by simp, fun _ => rfl⟩
  · exact hdone w (by simpa [hwt] using hw)

/-- A step whose test holds is for an event that is due, and pending. -/
theorem ServeInv.due (h : ServeInv s₀ i e ((test, wt) :: rest) s)
    (he : s₀.pollfds.data[i]? = some e)
    (hgood : ∀ wt ∈ e.reported, (s₀.view e.fd wt).isSome = true) (ht : test s = some true) :
    e.due wt = true ∧ ∃ r, s.view e.fd wt = some r := by
  rw [h.test_eq he, Option.some.injEq] at ht
  split at ht
  next hn => exact ⟨PollFd.due_of_invalid hn wt, Option.isSome_iff_exists.mp ht⟩
  next hn =>
    have hwt : wt ∈ e.reported := by simpa using ht
    obtain ⟨r, hr⟩ := Option.isSome_iff_exists.mp (hgood wt hwt)
    exact ⟨(PollFd.due_iff_reported (by simpa using hn)).mpr hwt, r, h.ahead wt (by simp) r hr⟩

/-- **A step whose test holds** calls the handler of the event. -/
theorem ServeInv.serve {beh : Behaviour τ} (hbeh : KeepsToFd beh)
    (h : ServeInv s₀ i e ((test, wt) :: rest) s) {place : π} (now : ℤ)
    (hok : serveOk beh s e.fd wt now e.code = true) (he : s₀.pollfds.data[i]? = some e)
    (hl : load s₀.asyncHandlers place = some (lookup s₀.asyncHandlers e.fd))
    (hgood : ∀ wt ∈ e.reported, (s₀.view e.fd wt).isSome = true) (ht : test s = some true) :
    ∃ s', IoEngine.serve beh s place e.fd wt now e.code = some s' ∧ ServeInv s₀ i e rest s' := by
  have hmem : wt ∈ ((test, wt) :: rest).map Prod.snd := by simp
  obtain ⟨hdue, r, hr⟩ := h.due he hgood ht
  obtain ⟨s', hrun, hinv, hs, -⟩ := h.inv.serve_own hbeh now (dequeueOk_of_serveOk hok) hr
    (show load s.asyncHandlers place = _ by rw [h.tree, hl]) e.code_ne_timeout
  obtain ⟨l, hlog, hsound, hfollow, hothers, hnone, hdone⟩ := h.log
  obtain ⟨l', hlog', hsound', hfollow', hcomp⟩ := hs.log
  have hkeep : ∀ w ∈ rest.map Prod.snd, w ≠ wt := fun w hw hc => h.fresh (hc ▸ hw)
  refine ⟨s', hrun, hinv.mono (by simp), hs.tree.trans h.tree, hs.status.trans h.status,
    hs.polls.trans h.polls, fun fd' w hne => (hs.others fd' w hne).trans (h.others fd' w hne),
    (List.suffix_cons _ _).trans h.rest, fun w hw r' hr' => ?_, l' ++ l,
    by rw [hlog', hlog, List.append_assoc], List.forall_mem_append.mpr ⟨hsound', hsound⟩,
    hfollow.trans hfollow',
    fun fd' w hne => ?_, fun w hw => ?_, fun w hw => ?_⟩
  · exact hs.kept w r' (hkeep w hw) (h.ahead w (List.mem_cons_of_mem _ hw) r' hr')
  · rw [completions_append, hcomp, if_neg (fun hc => hne hc.1), hothers fd' w hne]
    rfl
  · rw [completions_append, hcomp, if_neg (fun hc => hkeep w hw hc.2),
      hnone w (List.mem_cons_of_mem _ hw)]
    rfl
  · by_cases hwt : w = wt
    · subst hwt
      have hone : completions e.fd w (l' ++ l) = [(e.code, r.handler)] := by
        rw [completions_append, hcomp, if_pos ⟨rfl, rfl⟩, hnone w hmem]
        rfl
      refine ⟨fun r' hr' _ => ?_, fun _ _ hno => by simp [hdue] at hno, fun hno => ?_⟩
      · obtain rfl := Option.some.inj (hr.symm.trans (h.ahead w hmem r' hr'))
        exact hone
      · refine ⟨by rw [hone]; simp, fun hn => ?_⟩
        have hp := hgood w ((PollFd.due_iff_reported hn).mp hdue)
        simp [hno] at hp
    · have hsame : completions e.fd w (l' ++ l) = completions e.fd w l := by
        rw [completions_append, hcomp, if_neg (fun hc => hwt hc.2)]
        rfl
      obtain ⟨hdue', hleft, hlater⟩ := hdone w (by simpa [hwt] using hw)
      refine ⟨fun r' hr' hd => hsame.trans (hdue' r' hr' hd), fun r' hr' hd => ?_, fun hno => ?_⟩
      · obtain ⟨hnil, hv⟩ := hleft r' hr' hd
        exact ⟨hsame.trans hnil, hs.kept w r' hwt hv⟩
      · rw [hsame]
        exact hlater hno

end

/-- What one entry does. -/
structure EntryServed (s s' : Svc τ) (e : PollFd) : Prop where
  inv : Inv [] s'
  status : s'.status = s.status
  others : ∀ fd' wt, fd' ≠ e.fd → s'.view fd' wt = s.view fd' wt
  nodes : ∀ fd', fd' ≠ e.fd → lookup s'.asyncHandlers fd' = lookup s.asyncHandlers fd'
  node : lookup s'.asyncHandlers e.fd = none ∨
    lookup s'.asyncHandlers e.fd = lookup s.asyncHandlers e.fd
  log : ∃ l, s'.log = l ++ s.log ∧ (∀ o ∈ l, o.sound = true) ∧ Follows s s' l ∧
    (∀ fd' wt, fd' ≠ e.fd → completions fd' wt l = []) ∧ ∀ wt, EventServed s s' e l wt

/-- The extraction at the end of the entry at a position, if there is one, repairs the
tree. -/
def removalOk (beh : Behaviour τ) (now : ℤ) (s : Svc τ) (i : ℕ) : Bool :=
  (s.pollfds.data[i]?).all fun e => (rbProbe s.asyncHandlers e.fd).all fun place =>
    (serveSteps beh place e.fd now e.code (e.steps i) s).all fun s₁ =>
      (s₁.pollfds.data[i]?).all fun e₁ =>
        decide (e₁.events = 0 → extractOk s₁.asyncHandlers e.fd = true)

/-- **Every extraction of a pass repairs the tree**, as far as the fuel goes. -/
def removalsOk (beh : Behaviour τ) (now : ℤ) (fuel : ℕ) (s : Svc τ) (i : ℕ) : Bool :=
  eachEntry (removalOk beh now) beh now fuel s i

/-- The steps on one entry return, and keep what `ServeInv` says. -/
theorem Inv.serveSteps_own (h : Inv [] s) {beh : Behaviour τ} (hbeh : KeepsToFd beh) (now : ℤ)
    {place : π} (he : s.pollfds.data[i]? = some e)
    (hl : load s.asyncHandlers place = some (lookup s.asyncHandlers e.fd))
    (hclear : stepsFinding beh place e.fd now e.code (e.steps i) s ≠ .fault)
    (hgood : ∀ wt ∈ e.reported, (s.view e.fd wt).isSome = true) :
    ∃ s₁, IoEngine.serveSteps beh place e.fd now e.code (e.steps i) s = some s₁ ∧
      ServeInv s i e [] s₁ ∧ stepsFinding beh place e.fd now e.code (e.steps i) s = .good := by
  obtain ⟨s₁, hrun, h₁, hfind⟩ := serveSteps_rule beh place e.fd now e.code
    -- what the steps ahead find is what all of them find
    (P := fun steps s₁ => ServeInv s i e steps s₁ ∧
      stepsFinding beh place e.fd now e.code (e.steps i) s =
        stepsFinding beh place e.fd now e.code steps s₁)
    (fun {test wt rest s₁} ⟨h', hfind⟩ => by
      cases ht : test s₁ with
      | none =>
          rw [h'.test_eq he] at ht
          cases ht
      | some due =>
          cases due with
          | false =>
              exact ⟨false, s₁, rfl, rfl, h'.skip he ht, by simpa [stepsFinding, ht] using hfind⟩
          | true =>
              obtain ⟨-, r, hr⟩ := h'.due he hgood ht
              have hp : stillPending s₁ place e.fd wt = true := by
                simp only [stillPending, slotHolds, h'.tree, hl, decide_true, hr,
                  Option.isSome_some, Bool.and_self]
              simp only [stepsFinding, ht, hp, Bool.not_true, Bool.false_eq_true, if_false] at hfind
              split at hfind
              · exact absurd hfind hclear
              next hok =>
                simp only [Bool.not_eq_true', Bool.not_eq_false] at hok
                obtain ⟨s₂, hrun, h₂⟩ := h'.serve hbeh now hok he hl hgood ht
                rw [hrun, Option.elim_some] at hfind
                exact ⟨true, s₂, rfl, hrun, h₂, hfind⟩)
    ⟨⟨h.mono (by simp), rfl, rfl, rfl, fun _ _ _ => rfl, List.suffix_refl _,
      fun _ _ _ hr => hr, [], rfl, by simp, follows_of_view fun _ _ => rfl, fun _ _ _ => rfl,
      fun _ _ => rfl, fun wt hwt => absurd (mem_steps i e wt) hwt⟩, rfl⟩
  exact ⟨s₁, hrun, h₁, hfind⟩

/-- **One entry**: the handlers of its due events are called, and the entries behind it stay
where they are. -/
theorem Inv.serveEntry (h : Inv [] s) {beh : Behaviour τ} (hbeh : KeepsToFd beh) (now : ℤ)
    (he : s.pollfds.data[i]? = some e) (hclear : entryFinding beh now s i ≠ .fault)
    (hgood : ∀ wt ∈ e.reported, (s.view e.fd wt).isSome = true) :
    entryFinding beh now s i = .good ∧
      ∃ next s', IoEngine.dispatchEntry beh s i now = some (next, s') ∧
      EntryServed s s' e ∧
      (∀ e' ∈ s'.pollfds.data.drop (if next then i + 1 else i),
        e' ∈ s.pollfds.data.drop (i + 1) ∨ e'.fd = e.fd ∧ e'.revents = 0) ∧
      ∀ e' ∈ s.pollfds.data.drop (i + 1),
        e' ∈ s'.pollfds.data.drop (if next then i + 1 else i) := by
  obtain ⟨place, hp, hl⟩ := h.probe e.fd
  simp only [entryFinding, he, hp, Option.elim_some] at hclear ⊢
  obtain ⟨s₁, hrun, h₁, hsteps⟩ := h.serveSteps_own hbeh now he hl
    (fun hf => hclear (by rw [hf])) hgood
  rw [hsteps, hrun, Option.elim_some] at hclear ⊢
  obtain ⟨e₁, he₁, hfd₁, -, hev₁⟩ := h₁.entry he
  -- the node is removed exactly when the entry requests nothing any more
  have hslot : slotHolds s₁ place e.fd = true := decide_eq_true (by rw [h₁.tree, hl])
  have hvac : e₁.events = 0 → vacant s₁ e.fd = true := fun hz => by
    obtain ⟨a, n, ha, hn, -, hmask, -, -⟩ := h₁.inv.entry_at he₁
    rw [hfd₁] at ha
    rw [vacant_eq ha hn, ← hmask, hz]
    rfl
  have hend : endFinding i place e.fd s₁ = .good ∧
      (e₁.events = 0 → extractOk s₁.asyncHandlers e.fd = true) := by
    unfold endFinding at hclear ⊢
    simp only [he₁] at hclear ⊢
    by_cases hz : e₁.events = 0
    · simp only [hz, ne_eq, not_true_eq_false, if_false, removesVacant_eq, hslot, hvac hz,
        Bool.and_self, Bool.not_true, Bool.false_eq_true] at hclear ⊢
      split at hclear
      · exact absurd rfl hclear
      next hx =>
        rw [if_neg hx]
        exact ⟨rfl, fun _ => by simpa using hx⟩
    · exact ⟨if_pos hz, fun hc => absurd hc hz⟩
  refine ⟨hend.1, ?_⟩
  obtain ⟨next, s', hrun', hinv', -, hsame, hdrop⟩ := h₁.inv.endEntry_own (probe_wf hp) he₁ hfd₁
    (decide (e.revents &&& pollnval ≠ 0)) fun hz => ⟨hslot, hend.2 hz⟩
  have hbehind : s₁.pollfds.data.drop (i + 1) = s.pollfds.data.drop (i + 1) := by
    refine List.ext_getElem? fun j => ?_
    rw [List.getElem?_drop, List.getElem?_drop]
    exact h₁.behind h he (by omega)
  obtain ⟨l, hlog, hsound, hfollow, hothers, -, hdone⟩ := h₁.log
  have hview : ∀ fd wt, s'.view fd wt = s₁.view fd wt := fun fd wt => by rw [hsame.view]
  obtain ⟨l', hlog', hsound', hfollow', hcomp⟩ : ∃ l', s'.log = l' ++ s₁.log ∧
      (∀ o ∈ l', o.sound = true) ∧ Follows s₁ s' l' ∧ ∀ fd wt, completions fd wt l' = [] := by
    rcases hsame.log with hs | hs
    · exact ⟨[], hs, by simp, follows_of_view hview, fun _ _ => rfl⟩
    · exact ⟨[.cleaned e.fd true], hs, by simp [Obs.sound], follows_of_view hview, fun _ _ => rfl⟩
  refine ⟨next, s', by rw [dispatchEntry_eq he hp, hrun, Option.bind_some, hrun'], ⟨hinv',
    hsame.status.trans h₁.status, fun fd' wt hne => (hview fd' wt).trans (h₁.others fd' wt hne),
    fun fd' hne => by rw [hsame.others fd' hne, h₁.tree], by rw [← h₁.tree]; exact hsame.own,
    l' ++ l, by rw [hlog', hlog, List.append_assoc], List.forall_mem_append.mpr ⟨hsound', hsound⟩,
    hfollow.trans hfollow',
    fun fd' wt hne => ?_, fun wt => ?_⟩, fun e' hm => ?_,
    fun e' hm => (hdrop e').mpr (.inl (hbehind ▸ hm))⟩
  · rw [completions_append, hcomp, hothers fd' wt hne]
    rfl
  · refine (hdone wt (by simp)).later_state ?_ (hview e.fd wt)
    rw [completions_append, hcomp]
    rfl
  · rcases (hdrop e').mp hm with hm | ⟨-, -, rfl⟩
    · exact .inl (hbehind ▸ hm)
    · exact .inr ⟨hfd₁, rfl⟩

omit [LawfulFdTree τ π] in
/-- Steps whose tests fail do nothing. -/
theorem steps_idle (beh : Behaviour τ) (place : π) (fd now : ℤ) (code : IoErrcode)
    {steps : List (DispatchStep τ)} (h : ∀ st ∈ steps, st.1 s = some false) :
    stepsFinding beh place fd now code steps s = .good ∧
      serveSteps beh place fd now code steps s = some s := by
  induction steps with
  | nil => exact ⟨rfl, rfl⟩
  | cons st rest ih =>
      obtain ⟨test, wt⟩ := st
      have ht : test s = some false := h (test, wt) List.mem_cons_self
      obtain ⟨hfind, hrun⟩ := ih fun st hst => h st (List.mem_cons_of_mem _ hst)
      simp only [stepsFinding, serveSteps, ht, serveIf, bind, Option.bind_some, Bool.false_eq_true,
        if_false, hfind, hrun, and_self]

/-- **An entry of a valid fd of which nothing is reported** is passed over. -/
theorem Inv.dispatchEntry_idle {V : List ℤ} (h : Inv V s) (beh : Behaviour τ) (now : ℤ)
    (he : s.pollfds.data[i]? = some e) (hne : e.events ≠ 0) (hvalid : e.revents &&& pollnval = 0)
    (hnone : e.reported = []) : entryFinding beh now s i = .good ∧
      IoEngine.dispatchEntry beh s i now = some (true, s) := by
  obtain ⟨place, hp, -⟩ := h.probe e.fd
  obtain ⟨-, -, -, -, -, -, hreq, -⟩ := h.entry_at he
  have hidle : ∀ st ∈ e.steps i, st.1 s = some false := by
    intro ⟨test, wt⟩ hst
    refine (IoEngine.test_eq he hreq hst).trans ?_
    rw [hvalid, hnone]
    rfl
  obtain ⟨hfind, hrun⟩ := steps_idle beh place e.fd now e.code hidle
  constructor
  · simp only [entryFinding, he, hp, Option.elim_some, hfind, hrun, endFinding, if_pos hne]
  · rw [dispatchEntry_eq he hp, hrun, Option.bind_some]
    simp only [IoEngine.endEntry, he, bind, Option.bind_some, hvalid, ne_eq, not_true_eq_false,
      decide_false, Bool.false_eq_true, if_false, hne, Bool.not_false]

/-! ### A pass -/

/-- What holds at position `i` of a pass that began in the state `s₀`; `D` are the fds that
are done. -/
structure PassInv (s₀ : Svc τ) (D : List ℤ) (s : Svc τ) (i : ℕ) : Prop where
  inv : Inv [] s
  status : s.status = s₀.status
  /-- the fds that are done had an entry -/
  done : ∀ fd ∈ D, ∃ e ∈ s₀.pollfds.data, e.fd = fd
  /-- an entry that is ahead is one of the first state, or the fd is done and it has nothing
  to report any more -/
  ahead : ∀ e ∈ s.pollfds.data.drop i, e.fd ∈ D ∧ e.revents = 0 ∨
    e.fd ∉ D ∧ e ∈ s₀.pollfds.data
  /-- the entries of the fds that are not done are ahead -/
  todo : ∀ e ∈ s₀.pollfds.data, e.fd ∉ D → e ∈ s.pollfds.data.drop i
  view : ∀ fd wt, fd ∉ D → s.view fd wt = s₀.view fd wt
  nodes : ∀ fd, fd ∉ D → lookup s.asyncHandlers fd = lookup s₀.asyncHandlers fd
  node : ∀ fd, lookup s.asyncHandlers fd = none ∨
    lookup s.asyncHandlers fd = lookup s₀.asyncHandlers fd
  log : ∃ l, s.log = l ++ s₀.log ∧ (∀ o ∈ l, o.sound = true) ∧ Follows s₀ s l ∧
    (∀ fd wt, fd ∉ D → completions fd wt l = []) ∧
    ∀ e ∈ s₀.pollfds.data, e.fd ∈ D → ∀ wt, EventServed s₀ s e l wt

/-- The entry at the position and those behind it. -/
theorem drop_cons {l : List PollFd} {i : ℕ} {e : PollFd} (he : l[i]? = some e) :
    l.drop i = e :: l.drop (i + 1) := by
  obtain ⟨hi, rfl⟩ := List.getElem?_eq_some_iff.mp he
  exact List.drop_eq_getElem_cons hi

/-- The entries behind another one are of other fds. -/
theorem Inv.fd_ne_of_behind {V : List ℤ} (h : Inv V s) {i : ℕ} {e' : PollFd}
    (he : s.pollfds.data[i]? = some e) (hm : e' ∈ s.pollfds.data.drop (i + 1)) : e'.fd ≠ e.fd := by
  obtain ⟨j, hj⟩ := List.mem_iff_getElem?.mp hm
  rw [List.getElem?_drop] at hj
  intro hc
  have := h.fd_inj hj he hc
  omega

/-- An fd has one entry. -/
theorem Inv.entry_unique {V : List ℤ} (h : Inv V s) {e' : PollFd} (he : e ∈ s.pollfds.data)
    (he' : e' ∈ s.pollfds.data) (hfd : e'.fd = e.fd) : e' = e := by
  obtain ⟨j, hj⟩ := List.mem_iff_getElem?.mp he'
  obtain ⟨k, hk⟩ := List.mem_iff_getElem?.mp he
  obtain rfl := h.fd_inj hj hk hfd
  exact Option.some.inj (hj.symm.trans hk)

/-- The entry at the position is one of the first state, if its fd is not done. -/
theorem PassInv.mem_start {D : List ℤ} {i : ℕ} (h : PassInv s₀ D s i)
    (he : s.pollfds.data[i]? = some e) (hfd : e.fd ∉ D) : e ∈ s₀.pollfds.data := by
  rcases h.ahead e (by rw [drop_cons he]; exact List.mem_cons_self) with ⟨hc, -⟩ | ⟨-, he₀⟩
  · exact absurd hc hfd
  · exact he₀

/-- The entries of the first state that are not done are behind the position, but for the
one at it. -/
theorem PassInv.todo_behind {D : List ℤ} {i : ℕ} (h : PassInv s₀ D s i)
    (he : s.pollfds.data[i]? = some e) {e' : PollFd} (hm : e' ∈ s₀.pollfds.data)
    (hfd : e'.fd ∉ D) (hne : e'.fd ≠ e.fd) : e' ∈ s.pollfds.data.drop (i + 1) := by
  have hahead := h.todo e' hm hfd
  rw [drop_cons he] at hahead
  rcases List.mem_cons.mp hahead with rfl | hm'
  · exact absurd rfl hne
  · exact hm'

/-- What is ahead is also ahead once the fd at the position is done. -/
theorem PassInv.ahead_behind {D : List ℤ} {i : ℕ} (h : PassInv s₀ D s i)
    (he : s.pollfds.data[i]? = some e) {e' : PollFd} (hm : e' ∈ s.pollfds.data.drop (i + 1)) :
    e'.fd ∈ e.fd :: D ∧ e'.revents = 0 ∨ e'.fd ∉ e.fd :: D ∧ e' ∈ s₀.pollfds.data := by
  have hne := h.inv.fd_ne_of_behind he hm
  rcases h.ahead e' (by rw [drop_cons he]; exact List.mem_cons_of_mem _ hm) with
    ⟨hd, hr⟩ | ⟨hd, hm₀⟩
  · exact .inl ⟨List.mem_cons_of_mem _ hd, hr⟩
  · exact .inr ⟨by simp [hne, hd], hm₀⟩

/-- The fd at the position had an entry. -/
theorem PassInv.done_cons {D : List ℤ} {i : ℕ} (h : PassInv s₀ D s i)
    (he : s.pollfds.data[i]? = some e) (hfd : e.fd ∉ D) :
    ∀ fd ∈ e.fd :: D, ∃ e' ∈ s₀.pollfds.data, e'.fd = fd := by
  intro fd hd
  rcases List.mem_cons.mp hd with rfl | hd
  · exact ⟨e, h.mem_start he hfd, rfl⟩
  · exact h.done fd hd

/-- An entry whose fd is done is passed over. -/
theorem PassInv.skip {D : List ℤ} {i : ℕ} (h : PassInv s₀ D s i)
    (he : s.pollfds.data[i]? = some e) (hdone : e.fd ∈ D) : PassInv s₀ D s (i + 1) := by
  refine ⟨h.inv, h.status, h.done, fun e' hm => h.ahead e' ?_, fun e' hm hfd => ?_, h.view,
    h.nodes, h.node, h.log⟩
  · rw [drop_cons he]
    exact List.mem_cons_of_mem _ hm
  · exact h.todo_behind he hm hfd fun hc => hfd (hc ▸ hdone)

/-- An entry without a report is done. -/
theorem PassInv.unreported {D : List ℤ} {i : ℕ} (h : PassInv s₀ D s i) (h₀ : Inv [] s₀)
    (he : s.pollfds.data[i]? = some e) (hfd : e.fd ∉ D) (hr : e.revents = 0) :
    PassInv s₀ (e.fd :: D) s (i + 1) := by
  obtain ⟨l, hlog, hsound, hfollow, hnone, hserved⟩ := h.log
  refine ⟨h.inv, h.status, h.done_cons he hfd, fun e' hm => h.ahead_behind he hm,
    fun e' hm hd => ?_, fun fd wt hd => h.view fd wt fun hc => hd (List.mem_cons_of_mem _ hc),
    fun fd hd => h.nodes fd fun hc => hd (List.mem_cons_of_mem _ hc), h.node, l, hlog, hsound,
    hfollow, fun fd wt hd => hnone fd wt fun hc => hd (List.mem_cons_of_mem _ hc),
    fun e' hm hd wt => ?_⟩
  · obtain ⟨hne, hd⟩ : e'.fd ≠ e.fd ∧ e'.fd ∉ D := by simpa using hd
    exact h.todo_behind he hm hd hne
  · by_cases hd' : e'.fd ∈ D
    · exact hserved e' hm hd' wt
    · -- it is the entry that has just been passed over
      obtain rfl := h₀.entry_unique (h.mem_start he hfd) hm (by simpa [hd'] using hd)
      have hnil := hnone e'.fd wt hfd
      refine ⟨fun r _ hdue => ?_, fun r hrv _ => ⟨hnil, (h.view _ wt hfd).trans hrv⟩, fun _ => ?_⟩
      · simp [PollFd.due, hr] at hdue
      · rw [hnil]
        exact ⟨by simp, fun _ => rfl⟩

/-- **An entry with a report** is served and done. -/
theorem PassInv.serve {D : List ℤ} {i : ℕ} (h : PassInv s₀ D s i) (h₀ : Inv [] s₀)
    (he : s.pollfds.data[i]? = some e) (hfd : e.fd ∉ D) {s' : Svc τ} {next : Bool}
    (hs : EntryServed s s' e)
    (hsub : ∀ e' ∈ s'.pollfds.data.drop (if next then i + 1 else i),
      e' ∈ s.pollfds.data.drop (i + 1) ∨ e'.fd = e.fd ∧ e'.revents = 0)
    (hsup : ∀ e' ∈ s.pollfds.data.drop (i + 1),
      e' ∈ s'.pollfds.data.drop (if next then i + 1 else i)) :
    PassInv s₀ (e.fd :: D) s' (if next then i + 1 else i) := by
  obtain ⟨l, hlog, hsound, hfollow, hnone, hserved⟩ := h.log
  obtain ⟨l', hlog', hsound', hfollow', hothers, hev⟩ := hs.log
  have hnot : ∀ {fd}, fd ∉ e.fd :: D → fd ≠ e.fd ∧ fd ∉ D := fun hd => by simpa using hd
  refine ⟨hs.inv, hs.status.trans h.status, h.done_cons he hfd, fun e' hm => ?_,
    fun e' hm hd => ?_, fun fd wt hd => ?_, fun fd hd => ?_, fun fd => ?_, l' ++ l,
    by rw [hlog', hlog, List.append_assoc], List.forall_mem_append.mpr ⟨hsound', hsound⟩,
    hfollow.trans hfollow',
    fun fd wt hd => ?_, fun e' hm hd wt => ?_⟩
  · rcases hsub e' hm with hm' | ⟨hc, hr⟩
    · exact h.ahead_behind he hm'
    · exact .inl ⟨by simp [hc], hr⟩
  · exact hsup e' (h.todo_behind he hm (hnot hd).2 (hnot hd).1)
  · exact (hs.others fd wt (hnot hd).1).trans (h.view fd wt (hnot hd).2)
  · exact (hs.nodes fd (hnot hd).1).trans (h.nodes fd (hnot hd).2)
  · by_cases hc : fd = e.fd
    · subst hc
      rw [← h.nodes e.fd hfd]
      exact hs.node
    · rw [hs.nodes fd hc]
      exact h.node fd
  · rw [completions_append, hothers fd wt (hnot hd).1, hnone fd wt (hnot hd).2]
    rfl
  · by_cases hc : e'.fd = e.fd
    · obtain rfl := h₀.entry_unique (h.mem_start he hfd) hm hc
      refine ((hev wt).earlier_state (h.view _ wt hfd)).later_state ?_ rfl
      rw [completions_append, hnone _ wt hfd, List.append_nil]
    · have hd' : e'.fd ∈ D := by simpa [hc] using hd
      refine (hserved e' hm hd' wt).later_state ?_ (hs.others _ wt hc)
      rw [completions_append, hothers _ wt hc]
      rfl

/-- **One step of a pass**: the entry at the position. -/
theorem PassInv.step {D : List ℤ} (h : PassInv s₀ D s i) (h₀ : Inv [] s₀) {beh : Behaviour τ}
    (hbeh : KeepsToFd beh) (now : ℤ) (hclear : entryFinding beh now s i ≠ .fault)
    (hgood : ∀ e, s.pollfds.data[i]? = some e → e.fd ∉ D → ∀ wt ∈ e.reported,
      (s₀.view e.fd wt).isSome = true) (hi : i < s.pollfds.data.length) :
    entryFinding beh now s i = .good ∧ ∃ next s', dispatchEntry beh s i now = some (next, s') ∧
      (∃ D', PassInv s₀ D' s' (if next then i + 1 else i) ∧
        ∀ fd ∈ D', fd ∈ D ∨ ∃ e, s.pollfds.data[i]? = some e ∧ e.fd = fd) ∧
      Advances s.pollfds.data i s'.pollfds.data (if next then i + 1 else i) := by
  obtain ⟨e, he⟩ := exists_getElem? hi
  have hcons : ∀ fd ∈ e.fd :: D, fd ∈ D ∨ ∃ e, s.pollfds.data[i]? = some e ∧ e.fd = fd := by
    intro fd hd
    rcases List.mem_cons.mp hd with rfl | hd
    · exact .inr ⟨e, he, rfl⟩
    · exact .inl hd
  by_cases hr : e.revents = 0
  · obtain ⟨-, -, -, -, -, -, -, hne⟩ := h.inv.entry_at he
    obtain ⟨hfind, hrun⟩ := h.inv.dispatchEntry_idle beh now he (hne (by simp)) (by simp [hr])
      (by rw [PollFd.reported, hr]; decide)
    refine ⟨hfind, true, s, hrun, ?_, .pass hi⟩
    by_cases hfd : e.fd ∈ D
    · exact ⟨D, h.skip he hfd, fun fd hd => .inl hd⟩
    · exact ⟨e.fd :: D, h.unreported h₀ he hfd hr, hcons⟩
  · have hfd : e.fd ∉ D := by
      rcases h.ahead e (by rw [drop_cons he]; exact List.mem_cons_self) with ⟨-, hc⟩ | ⟨hfd, -⟩
      · exact absurd hc hr
      · exact hfd
    obtain ⟨hfind, next, s', hrun, hs, hsub, hsup⟩ := h.inv.serveEntry hbeh now he hclear
      (fun wt hwt => by rw [h.view _ wt hfd]; exact hgood e he hfd wt hwt)
    refine ⟨hfind, next, s', hrun, ⟨e.fd :: D, h.serve h₀ he hfd hs hsub hsup, hcons⟩, .inl ?_⟩
    refine reports_lt he hr hs.inv.nodup_fds fun e' hm hr' => ?_
    rcases hsub e' hm with hm' | ⟨-, hc⟩
    · exact ⟨e', hm', rfl, rfl⟩
    · exact absurd hc hr'

/-- The invariant at the beginning of a pass. -/
theorem passInv_start (h : Inv [] s) : PassInv s [] s 0 :=
  ⟨h, rfl, by simp, fun e he => .inr ⟨by simp, by simpa using he⟩,
    fun e he _ => by simpa using he,
    fun _ _ _ => rfl, fun _ _ => rfl, fun _ => .inr rfl, [], rfl, by simp,
    follows_of_view fun _ _ => rfl, fun _ _ _ => rfl, by simp⟩

/-- **What a pass does.** -/
structure PassServed (s s' : Svc τ) : Prop where
  inv : Inv [] s'
  status : s'.status = s.status
  /-- a node is where it was, or it is gone -/
  node : ∀ fd, lookup s'.asyncHandlers fd = none ∨
    lookup s'.asyncHandlers fd = lookup s.asyncHandlers fd
  /-- the handlers that were called, and those that were not -/
  log : ∃ l, s'.log = l ++ s.log ∧ (∀ o ∈ l, o.sound = true) ∧ Follows s s' l ∧
    (∀ fd wt, (∀ e ∈ s.pollfds.data, e.fd ≠ fd) → completions fd wt l = []) ∧
    ∀ e ∈ s.pollfds.data, ∀ wt, EventServed s s' e l wt

/-- **A whole pass** ends, and calls the handlers of the events that are due. -/
theorem Inv.servePass (h : Inv [] s) {beh : Behaviour τ} (hbeh : KeepsToFd beh) (now : ℤ)
    (hclear : ∀ fuel, passFinding beh now fuel s 0 ≠ .fault)
    (hgood : ∀ e ∈ s.pollfds.data, ∀ wt ∈ e.reported, (s.view e.fd wt).isSome = true) :
    ∃ fuel s', dispatchReadyEvents beh fuel s now = some s' ∧ PassServed s s' := by
  obtain ⟨fuel, s', i', hrun, ⟨⟨D, hP⟩, -⟩, hend⟩ := dispatchLoop_rule
    (Q := fun s₁ i => (∃ D, PassInv s D s₁ i) ∧ ∀ fuel, passFinding beh now fuel s₁ i ≠ .fault)
    (fun {s₁ i} ⟨⟨D, hP⟩, hclear₁⟩ hi => by
      obtain ⟨hfind, next, s₂, hrun, hP₂, hadv⟩ := hP.step h hbeh now
        (entryFinding_of_pass hi hclear₁) (fun e he hfd => hgood e (hP.mem_start he hfd)) hi
      exact ⟨next, s₂, hrun, ⟨hP₂.imp fun _ hD => hD.1, passFinding_tail hi hclear₁ hfind hrun⟩,
        hadv⟩)
    ⟨⟨[], passInv_start h⟩, hclear⟩
  obtain ⟨l, hlog, hsound, hfollow, hnone, hserved⟩ := hP.log
  refine ⟨fuel, s', hrun, hP.inv, hP.status, hP.node, l, hlog, hsound, hfollow,
    fun fd wt hno => hnone fd wt fun hd => ?_, fun e he wt => hserved e he ?_ wt⟩
  · obtain ⟨e, he, hfd⟩ := hP.done fd hd
    exact hno e he hfd
  -- nothing is ahead any more
  by_contra hfd
  have := hP.todo e he hfd
  rw [List.drop_eq_nil_of_le hend] at this
  cases this

/-! ### Passes that reach no defect -/

/-- Completing an event with a handler that keeps to its fd reaches no defect, if no deadline is
negative. -/
theorem Inv.serveOk_own {V : List ℤ} (h : Inv V s) {beh : Behaviour τ} (hbeh : KeepsToFd beh)
    (hD : DeadlinesOk s) {place : π} {fd : ℤ} {wt : WaitType} (now : ℤ) {code : IoErrcode}
    (hp : stillPending s place fd wt = true) (hcode : code ≠ .timeout) :
    serveOk beh s fd wt now code = true := by
  obtain ⟨a, d, ha, hl, hd⟩ := stillPending_iff.mp hp
  have hok := h.dequeueOk hD a wt
  obtain ⟨s₀, s₁, hstart, hdeq, rfl, hinv₁, -, -⟩ := h.serve_starts now ha hl hd hok hcode
  have ha₁ : lookup s₀.asyncHandlers fd = some a := by
    have htree : s₀.asyncHandlers = s.asyncHandlers := by rw [hdeq.same]; rfl
    rw [htree, ha]
  simp only [serveOk, ha, Option.all_some, hok, hstart, Bool.true_and]
  exact hinv₁.scriptOk_own _ ha₁ (hbeh _ _ _ ⟨wt, code, now, _, _, _, s₀.log, rfl⟩)

/-- **The steps of an entry reach no defect**, if no deadline is negative and the handlers that
they call set no negative one. -/
theorem Inv.stepsFinding_timed {V : List ℤ} (h : Inv V s) {beh : Behaviour τ}
    (hbeh : KeepsToFd beh) (hD : DeadlinesOk s) {place : π} {fd now : ℤ} {code : IoErrcode}
    (hcode : code ≠ .timeout) {steps : List (DispatchStep τ)}
    (hT : stepsTimed beh place fd now code steps s = true) :
    stepsFinding beh place fd now code steps s ≠ .fault ∧
      (stepsFinding beh place fd now code steps s = .good →
        ∃ s' V', IoEngine.serveSteps beh place fd now code steps s = some s' ∧ Inv V' s' ∧
          DeadlinesOk s') := by
  induction steps generalizing V s with
  | nil => exact ⟨by simp [stepsFinding], fun _ => ⟨s, V, rfl, h, hD⟩⟩
  | cons st rest ih =>
      obtain ⟨test, wt⟩ := st
      simp only [stepsFinding, stepsTimed, IoEngine.serveSteps, Option.all_eq_true,
        Bool.and_eq_true] at hT ⊢
      cases ht : test s with
      | none => simp
      | some due =>
          obtain ⟨hstart, hrest⟩ := hT due ht
          cases due with
          | false => exact ih h hD (hrest s rfl)
          | true =>
              cases hp : stillPending s place fd wt with
              | false => simp
              | true =>
                  have hok := h.serveOk_own hbeh hD now hp hcode
                  obtain ⟨a, d, ha, hl, hd⟩ := stillPending_iff.mp hp
                  obtain ⟨r, hr⟩ := Option.isSome_iff_exists.mp
                    (show (s.view fd wt).isSome = true by rw [view_of_lookup ha, hd]; rfl)
                  obtain ⟨s₁, hrun, hinv₁, -, hD₁⟩ :=
                    h.serve_own hbeh now (dequeueOk_of_serveOk hok)
                    hr (by rw [hl, ha]) hcode
                  have hih := ih hinv₁ (hD₁ (by simpa using hstart) hD) (hrest s₁ hrun)
                  simpa only [hok, hrun, serveIf, if_true, bind, Option.bind_some, Bool.not_true,
                    Bool.false_eq_true, if_false, Option.elim_some] using hih

/-- **An entry reaches no defect**, if moreover its removal repairs the tree. -/
theorem Inv.entryFinding_timed {V : List ℤ} (h : Inv V s) {beh : Behaviour τ}
    (hbeh : KeepsToFd beh) (hD : DeadlinesOk s) {now : ℤ} (hT : entryTimed beh now s i = true)
    (hrem : removalOk beh now s i = true) :
    entryFinding beh now s i ≠ .fault ∧ (entryFinding beh now s i = .good →
      ∀ next s', IoEngine.dispatchEntry beh s i now = some (next, s') →
        (∃ V', Inv V' s') ∧ DeadlinesOk s') := by
  cases he : s.pollfds.data[i]? with
  | none => simp [entryFinding, IoEngine.dispatchEntry, he]
  | some e =>
      obtain ⟨place, hp, -⟩ := h.probe e.fd
      simp only [entryTimed, removalOk, he, hp, Option.all_some] at hT hrem
      obtain ⟨hfault, hgood⟩ := h.stepsFinding_timed hbeh hD e.code_ne_timeout hT
      simp only [entryFinding, he, hp, Option.elim_some]
      cases hf : stepsFinding beh place e.fd now e.code (e.steps i) s with
      | stale => simp
      | fault => exact absurd hf hfault
      | good =>
          obtain ⟨s₁, V₁, hrun, hinv₁, hD₁⟩ := hgood hf
          simp only [hrun, Option.elim_some, Option.all_some] at hrem ⊢
          refine ⟨?_, fun hend next s' hrun' => ?_⟩
          · unfold endFinding
            split
            next => simp
            next e₁ he₁ =>
              rw [he₁, Option.all_some, decide_eq_true_iff] at hrem
              split
              · simp
              next hz =>
                split
                · simp
                · rw [hrem (by simpa using hz)]
                  simp
          · obtain ⟨e₁, next', s₂, -, hrun₂, hinv₂, -, hsame, -⟩ :=
              hinv₁.endEntry_good (probe_wf hp) hend (decide (e.revents &&& pollnval ≠ 0))
            rw [dispatchEntry_eq he hp, hrun, Option.bind_some, hrun₂, Option.some.injEq,
              Prod.mk.injEq] at hrun'
            obtain ⟨-, rfl⟩ := hrun'
            refine ⟨⟨V₁, hinv₂⟩, fun fd wt r D p hr => hD₁ fd wt r D p ?_⟩
            rwa [hsame.view] at hr

/-- **A pass reaches no defect**, if no deadline is negative when it begins, no handler that it
calls sets a negative one, and its removals repair the tree. -/
theorem Inv.passFinding_timed {V : List ℤ} (h : Inv V s) {beh : Behaviour τ}
    (hbeh : KeepsToFd beh) (hD : DeadlinesOk s) {now : ℤ} {fuel : ℕ}
    (hT : passTimed beh now fuel s i = true) (hrem : removalsOk beh now fuel s i = true) :
    passFinding beh now fuel s i ≠ .fault := by
  induction fuel generalizing V s i with
  | zero => simp [passFinding]
  | succ fuel ih =>
      simp only [passTimed, removalsOk, eachEntry, Bool.and_eq_true] at hT hrem
      obtain ⟨hfault, hgood⟩ := h.entryFinding_timed hbeh hD hT.1 hrem.1
      rw [passFinding]
      split
      next hi =>
        cases hf : entryFinding beh now s i with
        | stale => simp
        | fault => exact absurd hf hfault
        | good =>
            cases hrun : IoEngine.dispatchEntry beh s i now with
            | none => simp
            | some r =>
                rw [hrun] at hT hrem
                obtain ⟨⟨V', hinv⟩, hD'⟩ := hgood hf r.1 r.2 hrun
                exact ih hinv hD' hT.2 hrem.2
      next =>
        split <;> simp

end

end IoEngine
