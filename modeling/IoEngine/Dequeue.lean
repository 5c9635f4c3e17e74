import IoEngine.Consistent

/-!
# Removing Events

`iosvc_dequeue` takes one event out of the service, and `ioevt_cleanup_evt` takes out the
node of an fd together with its `pollfd`, filling the hole with the last one.

## Main results

* `Inv.dequeue`: **dequeueing a pending event** of a consistent state succeeds, removes
  that event from the view and nothing else, signals its status and remaining time, and
  leaves a state that is consistent but for the fd, which may be left without an event.
* `Inv.cleanup`: **cleaning up** an fd without a pending event succeeds, and leaves a
  consistent state without that fd and with all others as they were.
-/

open BinHeap

namespace IoEngine

open FdTree Svc LawfulFdTree

variable {τ π : Type} [FdTree τ π] [LawfulFdTree τ π] {V : List ℤ} {s : Svc τ}

/-! ### The heap entry -/

/-- The user's `int`s after the remaining time of an event has been signalled. -/
def signalRemaining (ints : Addr → Int32) (timer : Option (ℤ × Addr)) (now : ℤ) :
    Addr → Int32 :=
  match timer with
  | none => ints
  | some (deadline, p) => Function.update ints p (remainingTime deadline now)

/-- `*status = code`, if the pointer is not `NULL`. -/
def signalStatus (errs : Addr → IoErrcode) (status : Ptr) (code : IoErrcode) : Addr → IoErrcode :=
  match status with
  | none => errs
  | some p => Function.update errs p code

/-- The heap part of `iosvc_dequeue`: the entry of the event, if it has one, is removed. -/
theorem Inv.popEntry (h : Inv V s) {a : Addr} {wt : WaitType} {d : EventData} (now : ℤ)
    (hd : pendingAt s.nodes a wt = some d)
    (hok : 0 ≤ d.ddlHeapIdx → SentinelOk s.timed d.ddlHeapIdx.toNat) :
    ∃ s', (if 0 ≤ d.ddlHeapIdx then popTimed s d.ddlHeapIdx.toNat now else some s) = some s' ∧
      EntriesLinked s'.nodes s'.timed ∧ Ordered (fun x y => asyncHpEntLt x y) s'.timed ∧
      Retimed { s with
        ints := (signalRemaining s.ints (d.pendingWith (entryOf s.timed a wt)).timer now) } s' ∧
      ∀ e, e ∈ s'.timed ↔ e ∈ s.timed ∧ ¬(e.ioOpData = a ∧ e.eventType = wt) := by
  by_cases ht : 0 ≤ d.ddlHeapIdx
  · obtain ⟨e, he, hea, hew⟩ := h.entry_of_timed hd ht
    have hent : entryOf s.timed a wt = some e :=
      h.linked.entryOf_eq.mpr ⟨List.mem_of_getElem? he, hea, hew⟩
    obtain ⟨s', e', hl', hr', ho', hp'⟩ := popTimed_spec now h.linked h.heap he (hok ht)
    refine ⟨s', by rw [if_pos ht, e'], hl', ho', ?_, fun e₁ => ?_⟩
    · simpa [EventData.pendingWith, hent, signalRemaining, setInt] using hr'
    · rw [hp'.mem_iff, List.mem_eraseIdx_iff_getElem?]
      constructor
      · rintro ⟨j, hne, hj⟩
        refine ⟨List.mem_of_getElem? hj, fun hc => hne ?_⟩
        exact h.linked.unique hj he (hc.1.trans hea.symm) (hc.2.trans hew.symm)
      · rintro ⟨hm, hno⟩
        obtain ⟨j, hj⟩ := List.mem_iff_getElem?.mp hm
        refine ⟨j, fun hji => hno ?_, hj⟩
        rw [hji, he] at hj
        obtain rfl := Option.some.inj hj
        exact ⟨hea, hew⟩
  · have hno := h.linked.untimed hd (Int.not_le.mp ht)
    refine ⟨s, if_neg ht, h.linked, h.heap, ?_, fun e => ⟨fun he => ⟨he, hno e he⟩, fun he => he.1⟩⟩
    simpa [EventData.pendingWith, h.linked.entryOf_none.mpr hno, signalRemaining] using
      Retimed.refl s

/-! ### Dequeueing -/

/-- What dequeueing the event `r` of `fd` does. -/
structure Dequeued (s s' : Svc τ) (fd : ℤ) (wt : WaitType) (r : Pending) (now : ℤ)
    (code : IoErrcode) : Prop where
  /-- the rest of the service is untouched -/
  same : s' = { s with
    nodes := s'.nodes
    timedEventsHeap := s'.timedEventsHeap
    pollfds := s'.pollfds
    ints := s'.ints
    errs := s'.errs }
  /-- the event is gone, and no other -/
  view : ∀ fd' wt', s'.view fd' wt' = if fd' = fd ∧ wt' = wt then none else s.view fd' wt'
  /-- the `pollfd`s stay where they are -/
  polls : ∀ i : ℕ, (s'.pollfds.data[i]?).map (fun e => (e.fd, e.revents)) =
    (s.pollfds.data[i]?).map (fun e => (e.fd, e.revents))
  ints : s'.ints = signalRemaining s.ints r.timer now
  errs : s'.errs = signalStatus s.errs r.status code
  timed : ∀ e ∈ s'.timed, e ∈ s.timed

/-- Signalling a status touches nothing but the status variable. -/
theorem signal_eq (s : Svc τ) (status : Ptr) (code : IoErrcode) :
    s.signal status code = { s with errs := signalStatus s.errs status code } := by
  cases status <;> rfl

/-- What is pending in memory once the storage of one event has been vacated. -/
theorem pendingAt_vacate {N : Addr → Option EventNode} {a : Addr} {n : EventNode} {wt : WaitType}
    {slot : EvtSlot} (d : EventData) (hn : N a = some n) (hslot : n.getEvtData wt = some slot)
    (hd : (n.deref slot).isSome) (b : Addr) (w : WaitType) :
    pendingAt (Function.update N a (some (n.vacate d slot))) b w =
      if b = a ∧ w = wt then none else pendingAt N b w := by
  have hp := EventNode.pending_vacate d hslot hd
  by_cases hb : b = a
  · subst hb
    by_cases hw : w = wt
    · simp [pendingAt, hp, hw]
    · simp [pendingAt, hp, hw, hn]
  · simp [pendingAt, hb]

/-- **The run of `iosvc_dequeue`**, once the heap entry of the event, if it has one, is gone. -/
theorem dequeue_run {s s₁ : Svc τ} {a : Addr} {wt : WaitType} {slot : EvtSlot} {n : EventNode}
    {d : EventData} {e : PollFd} {ints : Addr → Int32} {now : ℤ} (code : IoErrcode)
    (hn : s.nodes a = some n) (hslot : n.getEvtData wt = some slot)
    (hdr : n.deref slot = some d)
    (hpop : (if 0 ≤ d.ddlHeapIdx then popTimed s d.ddlHeapIdx.toNat now else some s) = some s₁)
    (hr : Retimed { s with ints := ints } s₁) (he : s.pollfds.data[n.pollfdIdx]? = some e) :
    ∃ n₁ d₁, s₁.nodes a = some n₁ ∧ n₁.forget = n.forget ∧ n₁.getEvtData wt = some slot ∧
      n₁.deref slot = some d₁ ∧
      iosvcDequeue s a wt now code = some (d.handler, { s with
        nodes := Function.update s₁.nodes a (some (n₁.vacate d₁ slot))
        timedEventsHeap := s₁.timedEventsHeap
        pollfds := s.pollfds.set n.pollfdIdx { e with events := clearEvents e.events wt }
        ints := ints
        errs := signalStatus s.errs d.status code }) := by
  obtain ⟨n₁, hn₁, hf₁⟩ : ∃ n₁, s₁.nodes a = some n₁ ∧ n₁.forget = n.forget := by
    have := hr.events a
    simp only [hn, Option.map_some] at this
    exact Option.map_eq_some_iff.mp this
  have hslot₁ : n₁.getEvtData wt = some slot := by
    rw [← EventNode.getEvtData_forget, hf₁, EventNode.getEvtData_forget, hslot]
  obtain ⟨d₁, hdr₁, -⟩ : ∃ d₁, n₁.deref slot = some d₁ ∧ d₁.forget = d.forget := by
    have hc := congrArg (fun k => k.deref slot) hf₁
    simp only [EventNode.deref_forget, hdr, Option.map_some] at hc
    exact Option.map_eq_some_iff.mp hc
  have hsame : s₁ = { s with
      ints := ints
      nodes := s₁.nodes
      timedEventsHeap := s₁.timedEventsHeap } := by
    conv_lhs => rw [hr.same]
    simp only [retime, timed, Svc.mk.injEq, true_and, and_true]
    rw [hr.same]
    rfl
  refine ⟨n₁, d₁, hn₁, hf₁, hslot₁, hdr₁, ?_⟩
  rw [iosvcDequeue, hn]
  simp only [bind, Option.bind_some, hslot, hdr, hpop]
  simp only [modifyEvt, hn₁, hdr₁, bind, Option.bind_some]
  rw [hsame]
  cases d.status <;>
    simp [signal, signalStatus, modifyNode, he, EventNode.vacate]

/-- **Dequeueing a pending event.** -/
theorem Inv.dequeue (h : Inv V s) {fd : ℤ} {a : Addr} {wt : WaitType} {d : EventData}
    (now : ℤ) (code : IoErrcode) (ha : lookup s.asyncHandlers fd = some a)
    (hd : pendingAt s.nodes a wt = some d)
    (hok : 0 ≤ d.ddlHeapIdx → SentinelOk s.timed d.ddlHeapIdx.toNat) :
    ∃ s', iosvcDequeue s a wt now code = some (d.handler, s') ∧ Inv (fd :: V) s' ∧
      Dequeued s s' fd wt (d.pendingWith (entryOf s.timed a wt)) now code := by
  obtain ⟨n, hn, hp⟩ := Option.bind_eq_some_iff.mp hd
  obtain ⟨hlive, slot, hslot, hdr⟩ := EventNode.pending_eq_some.mp hp
  obtain ⟨e, he, hefd, heev, -⟩ := h.entry fd a n ha hn
  obtain ⟨s₁, e₁, hl₁, ho₁, hr₁, hmem⟩ := h.popEntry now hd hok
  obtain ⟨n₁, d₁, hn₁, hf₁, hslot₁, hdr₁, hrun⟩ := dequeue_run code hn hslot hdr e₁ hr₁ he
  have hwf₁ : n₁.Wf := by
    rw [← EventNode.wf_forget, hf₁, EventNode.wf_forget]
    exact h.wf a n hn
  have hidx₁ : n₁.pollfdIdx = n.pollfdIdx := by
    have := congrArg EventNode.pollfdIdx hf₁
    simpa using this
  obtain ⟨hwf₂, hidx₂, hp₂⟩ := EventNode.vacate_spec d₁ hwf₁ hslot₁ (by simp [hdr₁])
  have hpend := pendingAt_vacate d₁ hn₁ hslot₁ (by simp [hdr₁])
  refine ⟨_, hrun, ?_, ?_⟩
  · refine h.setNode ha hn rfl le_rfl (Function.update_self ..) hwf₂ (hidx₂.trans hidx₁)
      (fun b hb => ?_) (fun i => ?_) ho₁ (fun k e' he' => ?_) (fun b w d' hd' ht => ?_)
      (fun _ => List.mem_cons_of_mem _) (fun hfd => absurd List.mem_cons_self hfd)
    · simp only [Function.update_of_ne hb]
      exact hr₁.events b
    · have hmask : clearEvents e.events wt = (n₁.vacate d₁ slot).mask := by
        rw [heev, EventNode.mask, clearEvents_requested _ _ (by simp [hp]), EventNode.mask, hp₂]
        congr 1
        funext w
        by_cases hw : w = wt
        · simp [hw]
        · rw [Function.update_of_ne hw, Function.update_of_ne hw]
          have := congrArg (fun k => (k.pending w).isSome) hf₁
          simpa [EventNode.pending_forget] using this.symm
      have hlt := (List.getElem?_eq_some_iff.mp he).1
      by_cases hi : i = n.pollfdIdx
      · subst hi
        simp [DynArray.set, List.getElem?_set_self hlt, he, hmask]
      · simp [DynArray.set, List.getElem?_set_ne (Ne.symm hi), hi]
    · obtain ⟨d', hd', hk⟩ := hl₁ k e' he'
      have hno := ((hmem e').mp (List.mem_of_getElem? he')).2
      exact ⟨d', by rw [hpend, if_neg hno, hd'], hk⟩
    · rw [hpend] at hd'
      split at hd'
      · simp at hd'
      next hno =>
        obtain ⟨d₀, hd₀, hf₀⟩ : ∃ d₀, pendingAt s.nodes b w = some d₀ ∧ d₀.forget = d'.forget := by
          have := hr₁.events.pendingAt b w
          rw [hd', Option.map_some, eq_comm, Option.map_eq_some_iff] at this
          exact this
        have ht₀ : 0 ≤ d₀.ddlHeapIdx := by
          rw [← EventData.ddlHeapIdx_forget_nonneg, hf₀, EventData.ddlHeapIdx_forget_nonneg]
          exact ht
        obtain ⟨e', he', hb, hw⟩ := h.timers b w d₀ hd₀ ht₀
        exact ⟨e', (hmem e').mpr ⟨he', by rw [hb, hw]; exact hno⟩, hb, hw⟩
  · refine ⟨rfl, fun fd' wt' => ?_, fun i => ?_, rfl, rfl,
      fun e' he' => ((hmem e').mp he').1⟩
    · cases hb : lookup s.asyncHandlers fd' with
      | none =>
          rw [view_none (s := s) hb, ite_self]
          exact view_none hb
      | some b =>
          have hiff : fd' = fd ↔ b = a := h.fd_eq_iff ha hb
          simp only [view, hb, Option.bind_some, hpend]
          by_cases hc : b = a ∧ wt' = wt
          · rw [if_pos hc, if_pos ⟨hiff.mpr hc.1, hc.2⟩]
            rfl
          · rw [if_neg hc, if_neg fun hc' => hc ⟨hiff.mp hc'.1, hc'.2⟩]
            refine view_entry_congr (hr₁.events.pendingAt b wt') ?_
            refine entryOf_congr h.linked hl₁ fun e' hb' hw' => ?_
            rw [hmem e', hb', hw']
            exact and_iff_left hc
    · have hlt := (List.getElem?_eq_some_iff.mp he).1
      by_cases hi : n.pollfdIdx = i
      · subst hi
        simp [DynArray.set, List.getElem?_set_self hlt, he]
      · simp [DynArray.set, List.getElem?_set_ne hi]

/-- **Dequeueing from inside a heap with a negative deadline** leaves the entry of the event
behind, which is then not pending. -/
theorem Inv.dequeue_misses (h : Inv V s) {a : Addr} {wt : WaitType} {d : EventData} {now : ℤ}
    {code : IoErrcode} (hd : pendingAt s.nodes a wt = some d)
    (hbad : ¬(0 ≤ d.ddlHeapIdx → SentinelOk s.timed d.ddlHeapIdx.toNat)) {r : IoHandler × Svc τ}
    (hrun : iosvcDequeue s a wt now code = some r) (V' : List ℤ) : ¬ Inv V' r.2 := by
  intro hinv
  obtain ⟨ht, hbad⟩ := Classical.not_imp.mp hbad
  obtain ⟨n, hn, hp⟩ := Option.bind_eq_some_iff.mp hd
  obtain ⟨-, slot, hslot, hdr⟩ := EventNode.pending_eq_some.mp hp
  obtain ⟨ent, hent, hea, hew⟩ := h.entry_of_timed hd ht
  obtain ⟨fd, hfd⟩ := (h.dom a).mp (by simp [hn])
  obtain ⟨e, he, -⟩ := h.entry fd a n hfd hn
  obtain ⟨s₁, h₁⟩ : ∃ s₁, popTimed s d.ddlHeapIdx.toNat now = some s₁ := by
    simp only [iosvcDequeue, hn, hslot, hdr, if_pos ht, bind, Option.bind_some] at hrun
    obtain ⟨s₁, h₁, -⟩ := Option.bind_eq_some_iff.mp hrun
    exact ⟨s₁, h₁⟩
  obtain ⟨hr₁, hmem⟩ := popTimed_misses h.linked h.heap hent hbad h₁
  obtain ⟨n₁, d₁, hn₁, -, hslot₁, hdr₁, hrun'⟩ := dequeue_run code hn hslot hdr
    ((if_pos ht).trans h₁) hr₁ he
  obtain rfl := Option.some.inj (hrun.symm.trans hrun')
  obtain ⟨k, hk⟩ := List.mem_iff_getElem?.mp hmem
  obtain ⟨d', hd', -⟩ := hinv.linked k _ hk
  rw [pendingAt_vacate d₁ hn₁ hslot₁ (by simp [hdr₁]), if_pos ⟨hea, hew⟩] at hd'
  cases hd'

/-! ### The heap -/

/-- **Dequeueing a timed event removes its heap entry and no other.** In any service state
whose heap of timed events is in order, with no negative deadline and with every entry known
to its event, `iosvc_dequeue` of a timed event returns its handler and takes its entry, which
stands where the event says, out of the heap. The other entries stay as they are, in heap
order and known to their events. -/
theorem dequeue_removes_entry {s : Svc τ} {a : Addr} {wt : WaitType} {d : EventData} (now : ℤ)
    (code : IoErrcode) (hheap : Ordered (fun x y => asyncHpEntLt x y) s.timed)
    (hpos : ∀ e ∈ s.timed, 0 ≤ e.deadline) (hlinked : EntriesLinked s.nodes s.timed)
    (hd : pendingAt s.nodes a wt = some d)
    (htimed : ∃ e ∈ s.timed, e.ioOpData = a ∧ e.eventType = wt)
    (hpoll : ∀ n, s.nodes a = some n → n.pollfdIdx < s.pollfds.data.length) :
    ∃ ent s', s.timed[d.ddlHeapIdx.toNat]? = some ent ∧ ent.ioOpData = a ∧ ent.eventType = wt ∧
      iosvcDequeue s a wt now code = some (d.handler, s') ∧
      s'.timed.Perm (s.timed.eraseIdx d.ddlHeapIdx.toNat) ∧
      (∀ e ∈ s'.timed, ¬(e.ioOpData = a ∧ e.eventType = wt)) ∧
      Ordered (fun x y => asyncHpEntLt x y) s'.timed ∧ EntriesLinked s'.nodes s'.timed := by
  obtain ⟨ent, hmem, hea, hew⟩ := htimed
  obtain ⟨k, hk⟩ := List.mem_iff_getElem?.mp hmem
  obtain ⟨d', hd', hdk⟩ := hlinked k ent hk
  rw [hea, hew, hd] at hd'
  obtain rfl := Option.some.inj hd'
  obtain ⟨n, hn, hp⟩ := Option.bind_eq_some_iff.mp hd
  obtain ⟨-, slot, hslot, hdr⟩ := EventNode.pending_eq_some.mp hp
  obtain ⟨e, he⟩ := exists_getElem? (hpoll n hn)
  obtain ⟨s₁, e₁, hl₁, hr₁, ho₁, hperm⟩ := popTimed_spec now hlinked hheap hk (.inr hpos)
  have hidx : d.ddlHeapIdx.toNat = k := by rw [hdk, Int.toNat_natCast]
  have hpop : (if 0 ≤ d.ddlHeapIdx then popTimed s d.ddlHeapIdx.toNat now else some s) =
      some s₁ := by
    rw [if_pos (by omega), hidx, e₁]
  obtain ⟨n₁, d₁, hn₁, -, hslot₁, hdr₁, hrun⟩ := dequeue_run code hn hslot hdr hpop hr₁ he
  have hpend := pendingAt_vacate d₁ hn₁ hslot₁ (by simp [hdr₁])
  -- an entry of the event would stand at its position
  have hother : ∀ e ∈ s₁.timed, ¬(e.ioOpData = a ∧ e.eventType = wt) := by
    rintro e' he' ⟨hea', hew'⟩
    obtain ⟨j, hne, hj⟩ := List.mem_eraseIdx_iff_getElem?.mp (hperm.mem_iff.mp he')
    exact hne (hlinked.unique hj hk (hea'.trans hea.symm) (hew'.trans hew.symm))
  rw [hidx]
  refine ⟨ent, _, hk, hea, hew, hrun, hperm, hother, ho₁, fun j e' he' => ?_⟩
  obtain ⟨d', hd', hj⟩ := hl₁ j e' he'
  exact ⟨d', by rw [hpend, if_neg (hother e' (List.mem_of_getElem? he')), hd'], hj⟩

/-- A state with a timed read and a timed write of one fd. -/
def twoTimers : Svc FdMap :=
  { (iosvcCreate ⟨fun _ => true, 0⟩ 0 (fun _ => 0) fun _ => .ok : Svc FdMap) with
    nodes := fun a => if a = 0 then
        some ⟨.read, 0, ⟨⟨some 1, 0⟩, none, 0⟩, some ⟨⟨some 2, 0⟩, none, 1⟩, none⟩
      else none
    pollfds := ⟨[⟨3, enqueueMask .read ||| enqueueMask .write, 0⟩], 1, 0⟩
    timedEventsHeap := ⟨[⟨5, 0, 0, .read⟩, ⟨7, 1, 0, .write⟩], 2, 0⟩ }

/-- The entries of the example belong to its events. -/
theorem twoTimers_linked : EntriesLinked twoTimers.nodes twoTimers.timed := by
  intro k e he
  match k, he with
  | 0, he =>
      obtain rfl := Option.some.inj he
      exact ⟨⟨⟨some 1, 0⟩, none, 0⟩, rfl, rfl⟩
  | 1, he =>
      obtain rfl := Option.some.inj he
      exact ⟨⟨⟨some 2, 0⟩, none, 1⟩, rfl, rfl⟩

/-- Dequeueing the read leaves the entry of the write, at the root. -/
theorem dequeue_removes_entry_read :
    ∃ ent s', twoTimers.timed[0]? = some ent ∧ ent.ioOpData = 0 ∧ ent.eventType = .read ∧
      iosvcDequeue twoTimers 0 .read 6 .timeout = some (⟨some 1, 0⟩, s') ∧
      s'.timed.Perm [⟨7, 1, 0, .write⟩] ∧
      (∀ e ∈ s'.timed, ¬(e.ioOpData = 0 ∧ e.eventType = .read)) ∧
      Ordered (fun x y => asyncHpEntLt x y) s'.timed ∧ EntriesLinked s'.nodes s'.timed :=
  dequeue_removes_entry (s := twoTimers) (d := ⟨⟨some 1, 0⟩, none, 0⟩) 6 .timeout
    (by
      intro i x y hi hx hy
      match i, hx with
      | 1, hx =>
          obtain rfl := Option.some.inj hx
          obtain rfl := Option.some.inj hy
          decide)
    (by decide) twoTimers_linked rfl ⟨_, List.mem_cons_self, rfl, rfl⟩
    (fun n hn => by
      obtain rfl := Option.some.inj hn
      decide)

/-! ### Cleaning up -/

/-- The array after the last entry has been moved to position `i`. -/
theorem getElem?_fillHole {l : List PollFd} {i : ℕ} (last : PollFd) (hi : i < l.length) (j : ℕ) :
    (l.set i last).dropLast[j]? =
      if j < l.length - 1 then if j = i then some last else l[j]? else none := by
  rw [List.getElem?_dropLast, List.length_set]
  split
  · by_cases hj : j = i
    · subst hj
      rw [List.getElem?_set_self hi, if_pos rfl]
    · rw [List.getElem?_set_ne (Ne.symm hj), if_neg hj]
  · rfl

/-- A node whose `pollfd` was the last one and has been moved to position `i`. -/
def EventNode.relocate (n : EventNode) (last i : ℕ) : EventNode :=
  if n.pollfdIdx = last then { n with pollfdIdx := i } else n

/-- Moving the entry of a node keeps what is pending. -/
@[simp] theorem EventNode.pending_relocate (n : EventNode) (last i : ℕ) (wt : WaitType) :
    (n.relocate last i).pending wt = n.pending wt := by
  unfold relocate
  split <;> rfl

/-- Moving the entry of a node keeps it well formed. -/
@[simp] theorem EventNode.wf_relocate {n : EventNode} {last i : ℕ} :
    (n.relocate last i).Wf ↔ n.Wf := by
  unfold relocate
  split <;> rfl

/-- Moving an entry changes the index of the node that it belongs to. -/
@[simp] theorem EventNode.pollfdIdx_relocate (n : EventNode) (last i : ℕ) :
    (n.relocate last i).pollfdIdx = if n.pollfdIdx = last then i else n.pollfdIdx := by
  unfold relocate
  split <;> rfl

/-- What cleaning up `fd` does. -/
structure Cleaned (s s' : Svc τ) (fd : ℤ) : Prop where
  /-- the rest of the service is untouched -/
  same : s' = { s with
    nodes := s'.nodes
    asyncHandlers := s'.asyncHandlers
    pollfds := s'.pollfds }
  /-- the fd has no node any more -/
  lookup : lookup s'.asyncHandlers = Function.update (lookup s.asyncHandlers) fd none
  /-- no event is lost -/
  view : s'.view = s.view
  /-- the last `pollfd` fills the hole -/
  polls : ∃ i last, (s.pollfds.data[i]?).map PollFd.fd = some fd ∧
    s.pollfds.data.getLast? = some last ∧ s'.pollfds.data = (s.pollfds.data.set i last).dropLast

/-- The memory after cleaning up the node at `a`. -/
def cleanedNodes (N : Addr → Option EventNode) (a : Addr) (last i : ℕ) :
    Addr → Option EventNode :=
  fun b => if b = a then none else (N b).map fun k => k.relocate last i

/-- No pending event is touched by cleaning up a node that has none. -/
theorem pendingAt_cleanedNodes {N : Addr → Option EventNode} {a : Addr} {n : EventNode}
    (hn : N a = some n) (hvac : ∀ wt, n.pending wt = none) (last i : ℕ) :
    pendingAt (cleanedNodes N a last i) = pendingAt N := by
  funext b wt
  by_cases hb : b = a
  · subst hb
    simp [pendingAt, cleanedNodes, hn, hvac]
  · cases hk : N b <;> simp [pendingAt, cleanedNodes, hb, hk]

/-- The run of `ioevt_cleanup_evt`: the node of the moved `pollfd` is found in the tree. -/
theorem Inv.cleanup_eq (h : Inv V s) {fd : ℤ} {a : Addr} {n : EventNode} {place : π}
    (ha : lookup s.asyncHandlers fd = some a) (hn : s.nodes a = some n)
    (hp : rbProbe s.asyncHandlers fd = some place) (hok : extractOk s.asyncHandlers fd = true) :
    ∃ t last, ioevtCleanupEvt s place = some { s with
        asyncHandlers := t
        nodes := cleanedNodes s.nodes a (s.pollfds.data.length - 1) n.pollfdIdx
        pollfds := (s.pollfds.set n.pollfdIdx last).popBack } ∧
      s.pollfds.data[s.pollfds.data.length - 1]? = some last ∧ Valid t ∧
      lookup t = Function.update (lookup s.asyncHandlers) fd none := by
  obtain ⟨e, he, hefd, -⟩ := h.entry fd a n ha hn
  have hlt := (List.getElem?_eq_some_iff.mp he).1
  obtain ⟨last, hlast⟩ := exists_getElem? (l := s.pollfds.data)
    (show s.pollfds.data.length - 1 < s.pollfds.data.length by omega)
  obtain ⟨t', hx, hvalid, hlook⟩ := extract_spec h.tree hp ha hok
  have hfill := getElem?_fillHole last hlt
  refine ⟨free t' a, last, ?_, hlast, hvalid, hlook⟩
  have hcond : (n.pollfdIdx < (s.pollfds.data.set n.pollfdIdx last).dropLast.length) ↔
      n.pollfdIdx ≠ s.pollfds.data.length - 1 := by
    rw [List.length_dropLast, List.length_set]
    omega
  simp only [ioevtCleanupEvt, hx, hn, he, bind, Option.bind_some, List.getLast?_eq_getElem?, hlast,
    DynArray.set, DynArray.popBack, hcond]
  by_cases hi : n.pollfdIdx = s.pollfds.data.length - 1
  · -- the removed `pollfd` is the last one
    rw [if_neg (not_not_intro hi)]
    congr 2
    funext b
    by_cases hb : b = a
    · simp [cleanedNodes, hb]
    · simp only [Function.update_of_ne hb, cleanedNodes, if_neg hb]
      cases hk : s.nodes b with
      | none => rfl
      | some k =>
          simp only [Option.map_some, EventNode.relocate]
          split
          next hki => rw [hi, ← hki]
          next => rfl
  · rw [if_pos hi]
    obtain ⟨b, k, hb, hk, hki⟩ := h.back _ last hlast
    have hne : last.fd ≠ fd := fun hc => hi (h.fd_inj he hlast (hefd.trans hc.symm))
    have hba : b ≠ a := fun hc => hne (h.lookup_inj hb (hc ▸ ha))
    obtain ⟨p', hp', hload⟩ := probe_total hvalid last.fd
    rw [hlook, Function.update_of_ne hne, hb] at hload
    rw [hfill, if_pos (by omega), if_pos rfl]
    simp only [Option.bind_some, hp', hload, modifyNode, Function.update_of_ne hba, hk,
      Option.map_some]
    congr 2
    funext c
    by_cases hcb : c = b
    · subst hcb
      simp [cleanedNodes, hba, hk, EventNode.relocate, hki]
    · rw [Function.update_of_ne hcb]
      by_cases hca : c = a
      · simp [cleanedNodes, hca]
      · rw [Function.update_of_ne hca, cleanedNodes, if_neg hca]
        cases hkc : s.nodes c with
        | none => rfl
        | some kc =>
            simp only [Option.map_some, EventNode.relocate]
            rw [if_neg fun hc => hcb ?_]
            obtain ⟨fdc, hfdc⟩ := (h.dom c).mp (by simp [hkc])
            obtain rfl := h.idx_inj hfdc hkc hb hk (hc.trans hki.symm)
            exact Option.some.inj (hfdc.symm.trans hb)

/-- **Cleaning up an fd without a pending event.** -/
theorem Inv.cleanup (h : Inv V s) (V' : List ℤ) {fd : ℤ} {a : Addr} {n : EventNode} {place : π}
    (ha : lookup s.asyncHandlers fd = some a) (hn : s.nodes a = some n)
    (hvac : ∀ wt, n.pending wt = none) (hp : rbProbe s.asyncHandlers fd = some place)
    (hok : extractOk s.asyncHandlers fd = true) (hV : ∀ fd' ∈ V, fd' ≠ fd → fd' ∈ V') :
    ∃ s', ioevtCleanupEvt s place = some s' ∧ Inv V' s' ∧ Cleaned s s' fd := by
  obtain ⟨e, he, hefd, -⟩ := h.entry fd a n ha hn
  have hlt := (List.getElem?_eq_some_iff.mp he).1
  obtain ⟨t, last, hrun, hlast, hvalid, hlook⟩ := h.cleanup_eq ha hn hp hok
  have hfill := getElem?_fillHole last hlt
  have hpend := pendingAt_cleanedNodes hn hvac (s.pollfds.data.length - 1) n.pollfdIdx
  -- the fds of the new tree are the others, and their nodes are other nodes
  have hlook' : ∀ {fd' b}, lookup t fd' = some b →
      fd' ≠ fd ∧ b ≠ a ∧ lookup s.asyncHandlers fd' = some b := by
    intro fd' b hb
    rw [hlook] at hb
    by_cases hfd : fd' = fd
    · simp [hfd] at hb
    · rw [Function.update_of_ne hfd] at hb
      exact ⟨hfd, fun hc => hfd (h.lookup_inj hb (hc ▸ ha)), hb⟩
  -- the `pollfd` of another fd still has its node
  have hback : ∀ {j : ℕ} {e' : PollFd}, s.pollfds.data[j]? = some e' → e'.fd ≠ fd →
      ∃ b, ∃ k : EventNode, lookup t e'.fd = some b ∧
        cleanedNodes s.nodes a (s.pollfds.data.length - 1) n.pollfdIdx b =
          some (k.relocate (s.pollfds.data.length - 1) n.pollfdIdx) ∧ k.pollfdIdx = j := by
    intro j e' he' hne
    obtain ⟨b, k, hb, hk, hki⟩ := h.back j e' he'
    have hba : b ≠ a := fun hc => hne (h.lookup_inj hb (hc ▸ ha))
    refine ⟨b, k, by rw [hlook, Function.update_of_ne hne, hb], ?_, hki⟩
    simp only [cleanedNodes, if_neg hba, hk, Option.map_some]
  refine ⟨_, hrun, ⟨hvalid, fun b => ?_, fun b hb => ?_, fun b k hk => ?_, fun fd' b k hb hk => ?_,
    fun j e' he' => ?_, h.heap, ?_, ?_⟩, rfl, hlook, ?_, n.pollfdIdx, last, by simp [he, hefd], by
      rw [List.getLast?_eq_getElem?, hlast], rfl⟩
  · simp only [cleanedNodes]
    by_cases hba : b = a
    · subst hba
      simp only [if_true, Option.isSome_none, Bool.false_eq_true, false_iff, not_exists]
      exact fun fd' hb => (hlook' hb).2.1 rfl
    · rw [if_neg hba, Option.isSome_map, h.dom b]
      constructor
      · rintro ⟨fd', hb⟩
        refine ⟨fd', ?_⟩
        rw [hlook, Function.update_of_ne, hb]
        rintro rfl
        exact hba (Option.some.inj (hb.symm.trans ha))
      · rintro ⟨fd', hb⟩
        exact ⟨fd', (hlook' hb).2.2⟩
  · simp only [cleanedNodes] at hb
    split at hb
    · simp at hb
    · exact h.fresh b (by simpa using hb)
  · simp only [cleanedNodes] at hk
    split at hk
    · simp at hk
    · obtain ⟨k₀, hk₀, rfl⟩ := Option.map_eq_some_iff.mp hk
      exact EventNode.wf_relocate.mpr (h.wf b k₀ hk₀)
  · obtain ⟨hfd, hba, hb₀⟩ := hlook' hb
    simp only [cleanedNodes, if_neg hba] at hk
    obtain ⟨k₀, hk₀, rfl⟩ := Option.map_eq_some_iff.mp hk
    obtain ⟨e', he', hfd', hev, hne⟩ := h.entry fd' b k₀ hb₀ hk₀
    have hidx : k₀.pollfdIdx ≠ n.pollfdIdx := fun hc => hfd (h.idx_inj hb₀ hk₀ ha hn hc)
    have hlt' := (List.getElem?_eq_some_iff.mp he').1
    refine ⟨e', ?_, hfd', by simp [hev, EventNode.mask], fun hv => hne fun hc => hv (hV _ hc hfd)⟩
    simp only [DynArray.popBack, DynArray.set]
    rw [hfill, EventNode.pollfdIdx_relocate]
    split
    next hk =>
      rw [if_pos (by omega), if_pos rfl, ← hlast, ← hk, he']
    next hk =>
      rw [if_pos (show k₀.pollfdIdx < s.pollfds.data.length - 1 by omega), he']
  · simp only [DynArray.popBack, DynArray.set] at he'
    rw [hfill] at he'
    split at he'
    next hj =>
      split at he'
      next hji =>
        obtain rfl := Option.some.inj he'
        have hne : last.fd ≠ fd := fun hc => by
          have := h.fd_inj he hlast (hefd.trans hc.symm)
          omega
        obtain ⟨b, k, hb, hk, hki⟩ := hback hlast hne
        refine ⟨b, k.relocate _ _, hb, hk, ?_⟩
        rw [EventNode.pollfdIdx_relocate, if_pos hki, hji]
      next hji =>
        have hne : e'.fd ≠ fd := fun hc => hji (h.fd_inj he' he (hc.trans hefd.symm))
        obtain ⟨b, k, hb, hk, hki⟩ := hback he' hne
        refine ⟨b, k.relocate _ _, hb, hk, ?_⟩
        rw [EventNode.pollfdIdx_relocate, if_neg (by omega), hki]
    next => simp at he'
  · intro k e' he'
    simp only [hpend]
    exact h.linked k e' he'
  · simp only [hpend]
    exact h.timers
  · funext fd' wt
    simp only [view, hlook, hpend]
    by_cases hfd : fd' = fd
    · subst hfd
      simp [ha, pendingAt, hn, hvac]
    · rw [Function.update_of_ne hfd]
      rfl

end IoEngine
