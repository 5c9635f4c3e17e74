import IoEngine.Dequeue
import IoEngine.Enqueue

/-!
# The Event Storage as a Map

A node has room for one event of each wait type, but not one place for each: what the inline
event and the two blocks hold depends on the order in which events came and went. Seen from
outside it is a map from wait types to the pending records (`EventMap`), and the calls that
work on it, `iosvc_enqueue` and `iosvc_dequeue` on the node of one fd, are the two operations
of that map.

## Main results

* `Stores.step`: **one call** on the node is one operation on the map.
* `nodeRun_refines`: **every sequence of calls** on a new node returns the handlers, writes the
  status variables, and leaves the records that the map says.
-/

namespace IoEngine

open FdTree Svc LawfulFdTree

/-! ### The map -/

/-- A call on the node of an fd. -/
inductive NodeOp
  | enqueue (wt : WaitType) (hnd : IoHandler) (status : Ptr)
  | dequeue (wt : WaitType) (now : ℤ) (code : IoErrcode)

/-- **What a node's storage stands for**: at most one pending record, a handler and a status
pointer, for each wait type. Beside it stand the variables that status pointers designate. -/
structure EventMap where
  pending : WaitType → Option (IoHandler × Ptr)
  errs : Addr → IoErrcode

/-- A call on the map: an enqueue is for a wait type that is not pending and with a handler
that can be called, a dequeue for a wait type that is pending. A dequeue gives the handler of
the record, and signals through its status pointer. -/
def EventMap.step (M : EventMap) : NodeOp → Option (Option IoHandler × EventMap)
  | .enqueue wt hnd status =>
      if hnd.callback.isSome ∧ M.pending wt = none then
        some (none, { M with pending := Function.update M.pending wt (some (hnd, status)) })
      else none
  | .dequeue wt _ code =>
      (M.pending wt).map fun r => (some r.1,
        { pending := Function.update M.pending wt none
          errs := match r.2 with
            | none => M.errs
            | some p => Function.update M.errs p code })

/-- A sequence of calls on the map, and the handlers it gives. -/
def EventMap.run (M : EventMap) : List NodeOp → Option (List IoHandler × EventMap)
  | [] => some ([], M)
  | op :: ops => do
      let (out, M) ← M.step op
      let (outs, M) ← M.run ops
      some (out.toList ++ outs, M)

/-! ### The calls -/

section

variable {τ π : Type} [FdTree τ π]

/-- A call on the node at `a` of `fd`: an enqueue has to be accepted. -/
def NodeOp.exec (fd : ℤ) (a : Addr) (s : Svc τ) : NodeOp → Option (Option IoHandler × Svc τ)
  | .enqueue wt hnd status => do
      let (code, _, s) ← iosvcEnqueue s ⟨fd, some wt⟩ hnd status
      if code = .ok then some (none, s) else none
  | .dequeue wt now code => do
      let (hnd, s) ← iosvcDequeue s a wt now code
      some (some hnd, s)

/-- `iosvc_enqueue` with success is an operation on the node. -/
theorem NodeOp.exec_enqueue {fd : ℤ} {a : Addr} {s s' : Svc τ} {wt : WaitType} {hnd : IoHandler}
    {status out : Ptr} (h : iosvcEnqueue s ⟨fd, some wt⟩ hnd status = some (.ok, out, s')) :
    NodeOp.exec fd a s (.enqueue wt hnd status) = some (none, s') := by
  simp [NodeOp.exec, h]

/-- `iosvc_dequeue` is an operation on the node. -/
theorem NodeOp.exec_dequeue (fd : ℤ) {a : Addr} {s s' : Svc τ} {wt : WaitType} {now : ℤ}
    {code : IoErrcode} {hnd : IoHandler} (h : iosvcDequeue s a wt now code = some (hnd, s')) :
    NodeOp.exec fd a s (.dequeue wt now code) = some (some hnd, s') := by
  simp [NodeOp.exec, h]

/-- A sequence of calls on the node at `a` of `fd`, and the handlers it gives. -/
def nodeRun (fd : ℤ) (a : Addr) (s : Svc τ) : List NodeOp → Option (List IoHandler × Svc τ)
  | [] => some ([], s)
  | op :: ops => do
      let (out, s) ← op.exec fd a s
      let (outs, s) ← nodeRun fd a s ops
      some (out.toList ++ outs, s)

/-- **The node at `a` of `fd` stores the map `M`**, without timers, and the service accepts
events. -/
structure Stores (fd : ℤ) (a : Addr) (s : Svc τ) (M : EventMap) : Prop where
  slot : ∃ place, rbProbe s.asyncHandlers fd = some place ∧
    load s.asyncHandlers place = some (some a)
  status : s.status = .ready ∨ s.status = .running
  alloc : ∀ k, s.alloc.ok k = true
  node : ∃ n, s.nodes a = some n ∧ n.Wf ∧ n.pollfdIdx < s.pollfds.data.length ∧
    (∀ wt, (n.pending wt).map (fun d => (d.handler, d.status)) = M.pending wt) ∧
    ∀ wt d, n.pending wt = some d → d.ddlHeapIdx < 0
  errs : s.errs = M.errs

variable {fd : ℤ} {a : Addr} {s : Svc τ} {M M' : EventMap}

/-- **A dequeue gives its record back and removes it.** -/
theorem Stores.dequeue (h : Stores fd a s M) {wt : WaitType} {r : IoHandler × Ptr} (now : ℤ)
    (code : IoErrcode) (hr : M.pending wt = some r) :
    ∃ s', NodeOp.exec fd a s (.dequeue wt now code) = some (some r.1, s') ∧ Stores fd a s'
      { pending := Function.update M.pending wt none
        errs := match r.2 with
          | none => M.errs
          | some p => Function.update M.errs p code } := by
  obtain ⟨n, hn, hwf, hidx, hpend, htimer⟩ := h.node
  obtain ⟨e, he⟩ := exists_getElem? hidx
  obtain ⟨d, hd, rfl⟩ : ∃ d, n.pending wt = some d ∧ (d.handler, d.status) = r := by
    have := hpend wt
    rwa [hr, Option.map_eq_some_iff] at this
  obtain ⟨-, slot, hslot, hdr⟩ := EventNode.pending_eq_some.mp hd
  obtain ⟨n₁, d₁, hn₁, -, hslot₁, hdr₁, hrun⟩ := dequeue_run code hn hslot hdr
    (show (if 0 ≤ d.ddlHeapIdx then popTimed s d.ddlHeapIdx.toNat now else some s) = some s from
      if_neg (htimer wt d hd).not_ge) (show Retimed { s with ints := s.ints } s from .refl s) he
  obtain rfl : n₁ = n := Option.some.inj (hn₁.symm.trans hn)
  obtain ⟨hwf', hidx', hpend'⟩ := EventNode.vacate_spec d₁ hwf hslot₁ (by simp [hdr₁])
  refine ⟨_, NodeOp.exec_dequeue fd hrun, h.slot, h.status, h.alloc,
    ⟨_, Function.update_self .., hwf', ?_, fun w => ?_, fun w d' hd' => ?_⟩, ?_⟩
  · simpa [DynArray.set, hidx'] using hidx
  · rw [hpend']
    by_cases hw : w = wt
    · simp [hw]
    · simp [Function.update_of_ne hw, hpend]
  · rw [hpend'] at hd'
    by_cases hw : w = wt
    · simp [hw] at hd'
    · rw [Function.update_of_ne hw] at hd'
      exact htimer w d' hd'
  · rw [← h.errs]
    cases d.status <;> rfl

variable [LawfulFdTree τ π]

/-- **An enqueue adds its record.** -/
theorem Stores.enqueue (h : Stores fd a s M) {wt : WaitType} {hnd : IoHandler} (status : Ptr)
    (hcb : hnd.callback.isSome) (hfree : M.pending wt = none) :
    ∃ s', NodeOp.exec fd a s (.enqueue wt hnd status) = some (none, s') ∧ Stores fd a s'
      { M with pending := Function.update M.pending wt (some (hnd, status)) } := by
  obtain ⟨place, hp, hl⟩ := h.slot
  obtain ⟨n, hn, hwf, hidx, hpend, htimer⟩ := h.node
  obtain ⟨e, he⟩ := exists_getElem? hidx
  obtain ⟨c, hc⟩ := Option.isSome_iff_exists.mp hcb
  have hno : n.pending wt = none := by
    have := hpend wt
    rwa [hfree, Option.map_eq_none_iff] at this
  have hst : ¬(s.status ≠ .ready ∧ s.status ≠ .running) := fun hs => h.status.elim hs.1 hs.2
  rcases hr : reserveSlot s.alloc n wt with ⟨al, n', _ | slot⟩
  · obtain ⟨k, hk⟩ := reserveSlot_fails hr
    rw [h.alloc k] at hk
    cases hk
  have hres := reserveSlot_spec hwf hr
  have hrun := enqueueAt_existing_some fd hnd status hl hn hr hres he
  have hnew : (n'.assign (newEvent hnd status) slot).pending =
      Function.update n.pending wt (some (newEvent hnd status)) := hres.pending_assign hcb
  have hgrow : s.alloc.Grows al := by simpa [hr] using reserveSlot_grows s.alloc n wt
  have henq : iosvcEnqueue s ⟨fd, some wt⟩ hnd status =
      enqueueAt s place false fd wt hnd status := by
    simp only [iosvcEnqueue, if_neg hst, hc, hp, hl, hn, EventNode.isScheduled_eq, hno, bind,
      Option.bind_some, Option.isSome_none, Bool.false_eq_true, if_false]
  refine ⟨_, NodeOp.exec_enqueue (henq.trans hrun), ⟨place, hp, hl⟩, h.status, fun k => ?_,
    ⟨_, Function.update_self ..,
    hres.wf.assign hres.getEvtData _, ?_, fun w => ?_, fun w d hd => ?_⟩, h.errs⟩
  · exact (congrFun hgrow.ok k).trans (h.alloc k)
  · simpa [DynArray.set, hres.pollfdIdx] using hidx
  · rw [hnew]
    by_cases hw : w = wt
    · subst hw
      simp [newEvent]
    · simp [Function.update_of_ne hw, hpend]
  · rw [hnew] at hd
    by_cases hw : w = wt
    · subst hw
      obtain rfl : newEvent hnd status = d := by simpa using hd
      simp [newEvent]
    · rw [Function.update_of_ne hw] at hd
      exact htimer w d hd

/-- **One call** on the node is one operation on the map. -/
theorem Stores.step (h : Stores fd a s M) {op : NodeOp} {out : Option IoHandler}
    (hop : M.step op = some (out, M')) :
    ∃ s', op.exec fd a s = some (out, s') ∧ Stores fd a s' M' := by
  cases op with
  | enqueue wt hnd status =>
      simp only [EventMap.step] at hop
      split at hop
      next hc =>
        obtain ⟨rfl, rfl⟩ := Prod.mk.inj (Option.some.inj hop)
        exact h.enqueue status hc.1 hc.2
      next => cases hop
  | dequeue wt now code =>
      obtain ⟨r, hr, hres⟩ := Option.map_eq_some_iff.mp hop
      obtain ⟨rfl, rfl⟩ := Prod.mk.inj hres
      exact h.dequeue now code hr

/-- A sequence of calls on the node is the sequence of operations on the map. -/
theorem Stores.run (h : Stores fd a s M) {ops : List NodeOp} {outs : List IoHandler}
    (hops : M.run ops = some (outs, M')) :
    ∃ s', nodeRun fd a s ops = some (outs, s') ∧ Stores fd a s' M' := by
  induction ops generalizing s M outs with
  | nil =>
      obtain ⟨rfl, rfl⟩ := Prod.mk.inj (Option.some.inj hops)
      exact ⟨s, rfl, h⟩
  | cons op ops ih =>
      simp only [EventMap.run, bind, Option.bind_eq_some_iff, Prod.exists] at hops
      obtain ⟨out, M₁, hop, outs', M₂, hrest, hres⟩ := hops
      obtain ⟨rfl, rfl⟩ := Prod.mk.inj (Option.some.inj hres)
      obtain ⟨s₁, hrun₁, h₁⟩ := h.step hop
      obtain ⟨s', hrun', h'⟩ := ih h₁ hrest
      exact ⟨s', by simp only [nodeRun, hrun₁, hrun', bind, Option.bind_some], h'⟩

/-- The two lookups in a node agree. -/
theorem EventNode.isScheduled_iff (n : EventNode) (wt : WaitType) :
    n.isScheduled wt = true ↔
      ∃ slot d, n.getEvtData wt = some slot ∧ n.deref slot = some d ∧
        d.handler.callback ≠ none := by
  rw [EventNode.isScheduled_eq, Option.isSome_iff_exists]
  constructor
  · rintro ⟨d, hd⟩
    obtain ⟨hlive, slot, hslot, hdr⟩ := EventNode.pending_eq_some.mp hd
    exact ⟨slot, d, hslot, hdr, Option.isSome_iff_ne_none.mp hlive⟩
  · rintro ⟨slot, d, hslot, hdr, hcb⟩
    exact ⟨d, EventNode.pending_eq_some.mpr
      ⟨Option.isSome_iff_ne_none.mpr hcb, slot, hslot, hdr⟩⟩

/-- **The event storage refines a map.** On a node as `make_rbnode` leaves it, with memory
available, every sequence of enqueues of wait types that are not pending and dequeues of wait
types that are returns the handlers and writes the status variables of the records last
enqueued. Afterwards the storage holds the records of the map and no others, and
`is_scheduled` finds a wait type exactly where `get_evt_data` finds a slot in use. -/
theorem nodeRun_refines {place : π} {k : ℕ} (hprobe : rbProbe s.asyncHandlers fd = some place)
    (hload : load s.asyncHandlers place = some (some a))
    (hnode : s.nodes a = some (EventNode.zero.withIdx k)) (hk : k < s.pollfds.data.length)
    (hst : s.status = .ready ∨ s.status = .running) (hal : ∀ j, s.alloc.ok j = true)
    (ops : List NodeOp) {outs : List IoHandler}
    (hops : EventMap.run ⟨fun _ => none, s.errs⟩ ops = some (outs, M')) :
    ∃ s' n', nodeRun fd a s ops = some (outs, s') ∧ s'.errs = M'.errs ∧ s'.nodes a = some n' ∧
      (∀ wt, (n'.pending wt).map (fun d => (d.handler, d.status)) = M'.pending wt) ∧
      ∀ wt, (n'.isScheduled wt = (M'.pending wt).isSome) ∧ (n'.isScheduled wt = true ↔
        ∃ slot d, n'.getEvtData wt = some slot ∧ n'.deref slot = some d ∧
          d.handler.callback ≠ none) := by
  have hpend : ∀ wt, (EventNode.zero.withIdx k).pending wt = none := EventNode.pending_zero
  have h : Stores fd a s ⟨fun _ => none, s.errs⟩ :=
    ⟨⟨place, hprobe, hload⟩, hst, hal, ⟨_, hnode, fun _ => rfl, hk, fun wt => by simp [hpend],
      fun wt d hd => by simp [hpend] at hd⟩, rfl⟩
  obtain ⟨s', hrun, h'⟩ := h.run hops
  obtain ⟨n', hn', -, -, hmap, -⟩ := h'.node
  refine ⟨s', n', hrun, h'.errs, hn', hmap, fun wt => ⟨?_, n'.isScheduled_iff wt⟩⟩
  rw [EventNode.isScheduled_eq, ← hmap, Option.isSome_map]

end

/-- A service with a node for the fd 3. -/
def oneNode : Svc FdMap :=
  { (iosvcCreate ⟨fun _ => true, 1⟩ 0 (fun _ => 0) fun _ => .ok : Svc FdMap) with
    asyncHandlers := ⟨fun fd => if fd = 3 then some 0 else none,
      fun a => if a = 0 then some 3 else none⟩
    nodes := fun a => if a = 0 then some (EventNode.zero.withIdx 0) else none
    pollfds := ⟨[⟨3, 0, 0⟩], 1, 0⟩ }

/-- The block of a write, once it is vacated, is taken over by an exception. -/
theorem nodeRun_refines_steal :
    ∃ s' n', nodeRun 3 0 oneNode
        [.enqueue .read ⟨some 1, 0⟩ none, .enqueue .write ⟨some 2, 0⟩ (some 9),
          .dequeue .write 0 .timeout, .enqueue .exception ⟨some 3, 0⟩ none] =
        some ([⟨some 2, 0⟩], s') ∧
      s'.errs 9 = .timeout ∧ s'.nodes 0 = some n' ∧ n'.isScheduled .read = true ∧
      n'.isScheduled .write = false ∧ n'.isScheduled .exception = true := by
  obtain ⟨s', n', hrun, herrs, hn', -, hsch⟩ := nodeRun_refines
    (show rbProbe oneNode.asyncHandlers 3 = some 3 from rfl)
    (show load oneNode.asyncHandlers (3 : ℤ) = some (some 0) from rfl)
    (show oneNode.nodes 0 = some (EventNode.zero.withIdx 0) from rfl) (by decide) (.inl rfl)
    (fun _ => rfl)
    [.enqueue .read ⟨some 1, 0⟩ none, .enqueue .write ⟨some 2, 0⟩ (some 9),
      .dequeue .write 0 .timeout, .enqueue .exception ⟨some 3, 0⟩ none] rfl
  exact ⟨s', n', hrun, by rw [herrs]; rfl, hn', (hsch .read).1, (hsch .write).1,
    (hsch .exception).1⟩

end IoEngine
