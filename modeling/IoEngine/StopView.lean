import IoEngine.PrepStop
import IoEngine.Histories

/-!
# The Stop of a Consistent Service

The stop traverses the nodes and their storage. In a consistent service what it finds there is
what is pending (`Svc.view`), so that it completes every pending event, and each as it was
accepted.

## Main results

* `Inv.stopReady`: a **consistent service can be stopped**, if its delayed handlers can be called.
* `LogOk.prepStop`: the stop leaves a **consistent service with nothing pending**, and its log
  stays right.
-/

open RedBlack RedBlack.ColTree

namespace IoEngine

open FdTree Svc LawfulFdTree

/-! ### Targets and pending events -/

/-- A storage slot in use holds the pending event of its type. -/
theorem EventNode.pending_of_slot {n : EventNode} (h : n.Wf) {slot : EvtSlot} {d : EventData}
    (hd : n.deref slot = some d) (hlive : d.live = true) :
    n.pending (n.slotType slot) = some d := by
  cases slot with
  | ex =>
      rw [EventNode.slotType, EventNode.pending_exception]
      exact Option.filter_eq_some_iff.mpr ⟨hd, hlive⟩
  | main | aux =>
      cases hty : n.mainEvType with
      | empty =>
          -- nothing is stored in a vacant node
          have hvac := h hty
          simp only [EventNode.rdWrVacant, Bool.and_eq_true, Bool.not_eq_true'] at hvac
          simp_all [EventNode.deref]
      | read =>
          simp only [EventNode.slotType, hty, if_true, EventNode.pending_read,
            EventNode.pending_write]
          exact Option.filter_eq_some_iff.mpr ⟨hd, hlive⟩
      | write =>
          simp only [EventNode.slotType, hty, reduceCtorEq, if_false, EventNode.pending_read,
            EventNode.pending_write]
          exact Option.filter_eq_some_iff.mpr ⟨hd, hlive⟩

section

variable {s : Svc RbMem} {T : ColTree RbElem}

/-- What the data of an event says about its timer is what the heap says. -/
theorem Inv.pendingIn_eq (h : Inv [] s) {a : Addr} {wt : WaitType} {d : EventData}
    (hd : pendingAt s.nodes a wt = some d) :
    d.pendingIn s.timed = d.pendingWith (entryOf s.timed a wt) := by
  by_cases hidx : 0 ≤ d.ddlHeapIdx
  · obtain ⟨e, he, ha, hwt⟩ := h.entry_of_timed hd hidx
    have hentry := h.linked.entryOf_eq.mpr ⟨List.mem_of_getElem? he, ha, hwt⟩
    simp only [EventData.pendingIn, EventData.pendingWith, if_pos hidx, he, hentry]
  · have hnone : entryOf s.timed a wt = none := by
      rw [h.linked.entryOf_none]
      exact h.linked.untimed hd (Int.not_le.mp hidx)
    simp only [EventData.pendingIn, EventData.pendingWith, if_neg hidx, hnone, Option.map_none]

/-- **What the stop completes is pending.** -/
theorem Inv.view_of_target (h : Inv [] s) (hT : ValidTree s.asyncHandlers T) {t : StopTarget}
    (ht : t ∈ treeTargets s.nodes s.timed T) :
    ∃ fd wt r, t = .event fd wt r ∧ s.view fd wt = some r := by
  obtain ⟨⟨a, fd⟩, hx, n, hn, ht⟩ := mem_treeTargets ht
  obtain ⟨slot, d, hd, hlive, rfl⟩ := mem_nodeTargets ht
  have hpend : pendingAt s.nodes a (n.slotType slot) = some d := by
    rw [pendingAt, hn, Option.bind_some]
    exact EventNode.pending_of_slot (h.wf a n hn) hd hlive
  have ha : lookup s.asyncHandlers fd = some a := hT.lookup_iff.mpr hx
  refine ⟨_, _, _, rfl, ?_⟩
  rw [view_of_lookup ha, hpend, h.pendingIn_eq hpend]
  rfl

/-- The deadlines of accepted timeouts are near. -/
theorem LogOk.deadline_le (hlog : LogOk s) (h : Inv [] s) {e : AsyncHeapEntry} (he : e ∈ s.timed) :
    e.deadline ≤ s.clock + (2 ^ 31 - 1) := by
  obtain ⟨fd, r, hr, htimer⟩ := h.timer_of_mem he
  obtain ⟨timer, t₀, -, hle, ht, hT⟩ := hlog.1 fd _ r hr
  rw [htimer] at ht
  obtain ⟨⟨p, T⟩, rfl, hpair⟩ := Option.map_eq_some_iff.mp ht.symm
  have hlt := hT p T rfl
  have hdeadline : t₀ + T = e.deadline := (Prod.mk.inj hpair).1
  omega

/-- **A consistent service can be stopped**, if its delayed handlers can be called. -/
theorem Inv.stopReady (h : Inv [] s) (hlog : LogOk s) (hT : ValidTree s.asyncHandlers T)
    (hdelays : ∀ ent ∈ s.timedHandlersHeap.data, ent.handler.callback.isSome) :
    StopReady s T where
  root := hT.holds.root
  linked := hT.holds.repr.linked
  nodup := hT.holds.nodup
  below := hT.below
  stored a ha := by
    obtain ⟨x, hx, rfl⟩ := List.mem_map.mp ha
    exact (h.dom x.1).mpr ⟨x.2, hT.lookup_iff.mpr hx⟩
  delays := hdelays
  timers a _ n slot d hn hd hlive hidx := by
    have hpend : pendingAt s.nodes a (n.slotType slot) = some d := by
      rw [pendingAt, hn, Option.bind_some]
      exact EventNode.pending_of_slot (h.wf a n hn) hd hlive
    exact h.entry_of_timed hpend hidx
  deadlines _ he := hlog.deadline_le h he

end

/-! ### The log -/

section

variable {beh : Behaviour RbMem} {now : ℤ} {s s' : Svc RbMem} {ts : List StopTarget}

/-- The events that are still to be stopped are as they were last accepted. -/
def Owed (s : Svc RbMem) (ts : List StopTarget) : Prop :=
  ∀ fd wt r, .event fd wt r ∈ ts → ∃ timer t₀,
    lastAccepted fd wt s.log = some (r.handler, timer, t₀) ∧ t₀ ≤ s.clock ∧
      r.timer = timer.map (fun t => (t₀ + t.2, t.1)) ∧ ∀ p T, timer = some (p, T) → T < 2 ^ 31

/-- **The log stays right** while targets are completed. -/
theorem StopRun.timely (h : StopRun beh now s ts s') (hst : s.status = .stopping)
    (howed : Owed s ts) (ht : Timely s.log) : Timely s'.log := by
  induction h with
  | done h => rwa [h.log]
  | @stop s s₁ s₂ s' t ts h hrun _ ih =>
      have hst₁ : (t.signal now s₁).status = .stopping := h.status.trans hst
      obtain ⟨s₂', hrun', hidle⟩ := callHandler_stopping hst₁ beh (t.cause now)
        (isSome_of_callHandler hrun)
      obtain rfl := Option.some.inj (hrun.symm.trans hrun')
      have hst₂ : s₂.status = .stopping := by
        rw [hidle.same]
        exact hst₁
      have hlog₂ : s₂.log = .invoked (t.cause now) t.handler s.clock
          (t.signal now s₁).ints (t.signal now s₁).errs :: s.log := by
        rw [hidle.same, ← h.log, ← h.clock]
        rfl
      have hclock₂ : s.clock ≤ s₂.clock := by
        rw [← h.clock]
        exact hidle.clock
      -- a call of a handler accepts nothing
      have hlast : ∀ fd wt, lastAccepted fd wt s₂.log = lastAccepted fd wt s.log := fun fd wt => by
        rw [hlog₂]
        rfl
      refine ih hst₂ (fun fd wt r hr => ?_) ?_
      · obtain ⟨timer, t₀, hla, hle, hrest⟩ := howed fd wt r (List.mem_cons_of_mem _ hr)
        exact ⟨timer, t₀, (hlast fd wt).trans hla, hle.trans hclock₂, hrest⟩
      · rw [hlog₂]
        cases t with
        | delay ent => exact ht
        | event fd wt r =>
            obtain ⟨timer, t₀, hla, hle, htimer, hT⟩ := howed fd wt r List.mem_cons_self
            refine ⟨⟨timer, t₀, hla, hle, fun p T hp => ⟨hT p T hp, ?_⟩⟩, ht⟩
            rw [hp, Option.map_some] at htimer
            simp only [StopTarget.signal, StopTarget.timer, htimer, signalRemaining, signalled,
              reduceCtorEq, if_false]
            exact Function.update_self ..

/-- A stop that returns has called every delayed handler. -/
theorem stopDelayed_callable {fuel i : ℕ} (hst : s.status = .stopping)
    (hrun : stopDelayed beh fuel i s = some s') :
    ∀ ent ∈ s.timedHandlersHeap.data.drop i, ent.handler.callback.isSome := by
  induction fuel generalizing i s with
  | zero => cases hrun
  | succ fuel ih =>
      rw [stopDelayed] at hrun
      split at hrun
      next hi =>
        obtain ⟨ent, hent, hrun⟩ := Option.bind_eq_some_iff.mp hrun
        obtain ⟨s₁, h₁, hrun⟩ := Option.bind_eq_some_iff.mp hrun
        have hst₀ : (s.signal ent.status .stopped).status = .stopping := by rw [signal_eq, hst]
        have hcb := isSome_of_callHandler h₁
        obtain ⟨s₂, h₂, hidle⟩ := callHandler_stopping hst₀ beh (.delay ent .stopped) hcb
        obtain rfl := Option.some.inj (h₁.symm.trans h₂)
        have hheap : s₁.timedHandlersHeap = s.timedHandlersHeap := by
          rw [hidle.same, signal_eq]
          rfl
        have hrest := ih (by rw [hidle.same]; exact hst₀) hrun
        rw [hheap] at hrest
        rw [List.drop_eq_getElem_cons hi, (List.getElem?_eq_some_iff.mp hent).2]
        simpa using ⟨hcb, by simpa using hrest⟩
      next hi => simp [List.drop_eq_nil_of_le (Nat.le_of_not_lt hi)]

/-- **The stop of a consistent service** leaves nothing pending, and its log stays right. -/
theorem LogOk.prepStop (hlog : LogOk s) (h : Inv [] s) (hst : s.status = .stopping)
    (hrun : iosvcPrepStop beh s = some s') : Inv [] s' ∧ LogOk s' := by
  obtain ⟨T, hT⟩ := h.tree
  obtain ⟨s₀, h₀, -⟩ := Option.bind_eq_some_iff.mp hrun
  obtain ⟨s₁, s₂, hrun₂, -, hstop₁, hstop, hdelays, htimed, hpoll, hroot, hfreed, hkept⟩ :=
    (h.stopReady hlog hT (by simpa using stopDelayed_callable hst h₀)).prepStop beh hst
  obtain rfl := Option.some.inj (hrun.symm.trans hrun₂)
  have hnodes : ∀ a, s'.nodes a = none ∧ s'.asyncHandlers.node a = none := by
    intro a
    by_cases ha : a ∈ addrs T
    · exact hfreed a ha
    · obtain ⟨hnode, hlinks⟩ := hkept a ha
      rw [hnode, hlinks, ← Option.not_isSome_iff_eq_none, ← Option.not_isSome_iff_eq_none, h.dom,
        hT.live]
      refine ⟨?_, ha⟩
      rintro ⟨fd, hfd⟩
      exact ha (List.mem_map.mpr ⟨(a, fd), hT.lookup_iff.mp hfd, rfl⟩)
  have hnil : ValidTree s'.asyncHandlers .nil :=
    RbMem.validTree_nil hroot fun a => (hnodes a).2
  have hlookup : ∀ fd, lookup s'.asyncHandlers fd = none := fun fd => by
    refine Option.eq_none_iff_forall_ne_some.mpr fun a ha => ?_
    exact List.not_mem_nil (hnil.lookup_iff.mp ha)
  refine ⟨inv_of_empty ⟨.nil, hnil⟩ hlookup (fun a => (hnodes a).1) hpoll htimed, ?_, ?_⟩
  · intro fd wt r hr
    rw [view_none (hlookup fd)] at hr
    cases hr
  · refine (hstop₁.append hstop).timely hst (fun fd wt r hr => ?_) hlog.2
    rw [List.mem_append] at hr
    rcases hr with hr | hr
    · simp at hr
    · obtain ⟨fd', wt', r', heq, hview⟩ := h.view_of_target hT hr
      cases heq
      exact hlog.1 fd wt r hview

end

end IoEngine
