import IoEngine.RbSearch
import IoEngine.Stopping

/-!
# The Stop

`iosvc_prep_stop` completes everything that is pending: first the delayed handlers, in the
order of their array, then the events, node by node from the root of the tree down. The
handlers it calls may make any calls of the service; all are refused (`Stopping`), so that the
traversal meets the arrays, the tree and the storage as they were.

What is completed is a list of *targets*, each a handler with the variables it is to find its
status and its remaining time in, and `StopRun` says what completing them in turn means.

## Main results

* `stopAsyncOps_spec`: **the events of a tree** are completed once each, and its nodes freed.
* `prepStop_completes`: **the whole stop** completes every delayed handler and every event, and
  leaves nothing.
-/

open RedBlack RedBlack.ColTree

namespace IoEngine

open FdTree Svc

/-! ### Targets -/

/-- Something pending that is to be completed: a delayed handler, or an event of an fd. -/
inductive StopTarget
  | delay (ent : DelayHeapEntry)
  | event (fd : ℤ) (wt : WaitType) (r : Pending)

namespace StopTarget

def cause (now : ℤ) : StopTarget → Cause
  | delay ent => .delay ent .stopped
  | event fd wt _ => .event fd wt .stopped now

def handler : StopTarget → IoHandler
  | delay ent => ent.handler
  | event _ _ r => r.handler

def status : StopTarget → Ptr
  | delay ent => ent.status
  | event _ _ r => r.status

def timer : StopTarget → Option (ℤ × Addr)
  | delay _ => none
  | event _ _ r => r.timer

/-- The state in which the handler of a target is called: its status is `EIO_STOPPED`, and the
remaining time of a timed event, and nothing else, has been written. -/
def signal {τ : Type} (now : ℤ) (t : StopTarget) (s : Svc τ) : Svc τ :=
  { s with
    errs := signalStatus s.errs t.status .stopped
    ints := signalRemaining s.ints t.timer now }

end StopTarget

/-- The time, the user's variables, the log and the status are the same. -/
structure SameVars {τ : Type} (s s' : Svc τ) : Prop where
  status : s'.status = s.status
  clock : s'.clock = s.clock
  ints : s'.ints = s.ints
  errs : s'.errs = s.errs
  log : s'.log = s.log

theorem SameVars.refl {τ : Type} (s : Svc τ) : SameVars s s := ⟨rfl, rfl, rfl, rfl, rfl⟩

theorem SameVars.trans {τ : Type} {s₁ s₂ s₃ : Svc τ} (h₁ : SameVars s₁ s₂) (h₂ : SameVars s₂ s₃) :
    SameVars s₁ s₃ :=
  ⟨h₂.status.trans h₁.status, h₂.clock.trans h₁.clock, h₂.ints.trans h₁.ints,
    h₂.errs.trans h₁.errs, h₂.log.trans h₁.log⟩

/-- **Completing targets one after another**: the handler of each is called once, with its
status and remaining time signalled, and between two handlers only memory is freed. -/
inductive StopRun (beh : Behaviour RbMem) (now : ℤ) : Svc RbMem → List StopTarget → Svc RbMem → Prop
  | done {s s' : Svc RbMem} (h : SameVars s s') : StopRun beh now s [] s'
  | stop {s s₁ s₂ s' : Svc RbMem} {t : StopTarget} {ts : List StopTarget} (h : SameVars s s₁)
      (hrun : callHandler beh (t.cause now) t.handler (t.signal now s₁) = some s₂)
      (hrest : StopRun beh now s₂ ts s') : StopRun beh now s (t :: ts) s'

section

variable {beh : Behaviour RbMem} {now : ℤ} {s s₁ s' : Svc RbMem} {ts ts' : List StopTarget}

/-- What is completed does not depend on the rest of the state. -/
theorem StopRun.of_same (h : SameVars s s₁) (hrun : StopRun beh now s₁ ts s') :
    StopRun beh now s ts s' := by
  cases hrun with
  | done h' => exact .done (h.trans h')
  | stop h' hcall hrest => exact .stop (h.trans h') hcall hrest

/-- Completing some events and then others completes them all. -/
theorem StopRun.append (h₁ : StopRun beh now s ts s₁) (h₂ : StopRun beh now s₁ ts' s') :
    StopRun beh now s (ts ++ ts') s' := by
  induction h₁ with
  | done h => exact h₂.of_same h
  | stop h hcall _ ih => exact .stop h hcall (ih h₂)

end

/-! ### One handler -/

/-- Nothing but time, the user's variables, storage and the log has changed. -/
structure Quiet {τ : Type} (s s' : Svc τ) : Prop where
  same : s' = { s with
    alloc := s'.alloc
    timedEventsHeap := s'.timedEventsHeap
    clock := s'.clock
    ints := s'.ints
    errs := s'.errs
    log := s'.log }
  timed : s'.timed = s.timed
  clock : s.clock ≤ s'.clock

theorem Quiet.refl {τ : Type} (s : Svc τ) : Quiet s s := ⟨rfl, rfl, le_rfl⟩

theorem Quiet.trans {τ : Type} {s₁ s₂ s₃ : Svc τ} (h₁ : Quiet s₁ s₂) (h₂ : Quiet s₂ s₃) :
    Quiet s₁ s₃ := by
  refine ⟨?_, h₂.timed.trans h₁.timed, h₁.clock.trans h₂.clock⟩
  rw [h₂.same, h₁.same]

theorem Quiet.status {τ : Type} {s s' : Svc τ} (h : Quiet s s') : s'.status = s.status := by
  rw [h.same]

theorem Quiet.nodes {τ : Type} {s s' : Svc τ} (h : Quiet s s') : s'.nodes = s.nodes := by
  rw [h.same]

theorem Quiet.tree {τ : Type} {s s' : Svc τ} (h : Quiet s s') :
    s'.asyncHandlers = s.asyncHandlers := by
  rw [h.same]

/-- A handler that could be called is not `NULL`. -/
theorem isSome_of_callHandler {τ π : Type} [FdTree τ π] {beh : Behaviour τ} {cause : Cause}
    {hnd : IoHandler} {s s' : Svc τ} (h : callHandler beh cause hnd s = some s') :
    hnd.callback.isSome := by
  by_contra hc
  rw [Option.not_isSome_iff_eq_none] at hc
  simp [callHandler, invoke, hc] at h

/-- **A handler called while the service stops** returns, and the log has one more entry. -/
theorem callHandler_stopping {τ π : Type} [FdTree τ π] {s : Svc τ} (hst : s.status = .stopping)
    (beh : Behaviour τ) (cause : Cause) {hnd : IoHandler} (hcb : hnd.callback.isSome) :
    ∃ s', callHandler beh cause hnd s = some s' ∧
      Idle (s.note (.invoked cause hnd s.clock s.ints s.errs)) s' := by
  obtain ⟨c, hc⟩ := Option.isSome_iff_exists.mp hcb
  obtain ⟨s', hrun, hidle, -⟩ := exec_stopping
    (beh hnd (s.note (.invoked cause hnd s.clock s.ints s.errs)))
    (s := s.note (.invoked cause hnd s.clock s.ints s.errs)) hst
  exact ⟨s', by simp only [callHandler, invoke, hc, hrun], hidle⟩

/-- **Completing one target.** -/
theorem stopTarget_spec {s : Svc RbMem} (hst : s.status = .stopping) (beh : Behaviour RbMem)
    (now : ℤ) {t : StopTarget} (hcb : t.handler.callback.isSome) :
    ∃ s', callHandler beh (t.cause now) t.handler (t.signal now s) = some s' ∧ Quiet s s' ∧
      StopRun beh now s [t] s' := by
  obtain ⟨s', hrun, hidle⟩ := callHandler_stopping (s := t.signal now s) hst beh (t.cause now) hcb
  refine ⟨s', hrun, ⟨?_, hidle.timed, hidle.clock⟩, .stop (.refl s) hrun (.done (.refl s'))⟩
  rw [hidle.same]
  rfl

/-! ### The delayed handlers -/

/-- **The loop over the delayed handlers** completes the ones from position `i` on. -/
theorem stopDelayed_spec (beh : Behaviour RbMem) (now : ℤ) {fuel i : ℕ} {s : Svc RbMem}
    (hst : s.status = .stopping)
    (hcb : ∀ ent ∈ s.timedHandlersHeap.data, ent.handler.callback.isSome)
    (hle : i ≤ s.timedHandlersHeap.data.length)
    (hfuel : s.timedHandlersHeap.data.length < fuel + i) :
    ∃ s', stopDelayed beh fuel i s = some s' ∧ Quiet s s' ∧
      StopRun beh now s ((s.timedHandlersHeap.data.drop i).map .delay) s' := by
  induction fuel generalizing i s with
  | zero => omega
  | succ fuel ih =>
      by_cases hi : i < s.timedHandlersHeap.data.length
      · obtain ⟨ent, hent⟩ := exists_getElem? hi
        obtain ⟨s₁, hrun₁, hq₁, hstop₁⟩ := stopTarget_spec hst beh now (t := .delay ent)
          (hcb ent (List.mem_of_getElem? hent))
        have hheap : s₁.timedHandlersHeap = s.timedHandlersHeap := by rw [hq₁.same]
        obtain ⟨s', hrun', hq', hstop'⟩ := ih (i := i + 1) (s := s₁) (hq₁.status.trans hst)
          (by rwa [hheap]) (by rw [hheap]; omega) (by rw [hheap]; omega)
        refine ⟨s', ?_, hq₁.trans hq', ?_⟩
        · have hsig : StopTarget.signal now (.delay ent) s = s.signal ent.status .stopped := by
            rw [signal_eq]
            rfl
          rw [hsig] at hrun₁
          have hrun₁' : callHandler beh (.delay ent .stopped) ent.handler
            (s.signal ent.status .stopped) = some s₁ := hrun₁
          simp only [stopDelayed, if_pos hi, hent, bind, Option.bind_some, hrun₁', hrun']
        · rw [List.drop_eq_getElem_cons hi, (List.getElem?_eq_some_iff.mp hent).2]
          rw [hheap] at hstop'
          exact hstop₁.append hstop'
      · refine ⟨s, by rw [stopDelayed, if_neg hi], .refl s, ?_⟩
        rw [List.drop_eq_nil_of_le (by omega)]
        exact .done (.refl s)

/-! ### The events of a node -/

/-- The pending event that an event's data stands for, with its entry where the data says. -/
def EventData.pendingIn (d : EventData) (timed : List AsyncHeapEntry) : Pending :=
  ⟨d.handler, d.status, if 0 ≤ d.ddlHeapIdx then
    (timed[d.ddlHeapIdx.toNat]?).map fun e => (e.deadline, e.remaining) else none⟩

/-- The target in a storage slot, if the slot is in use. -/
def slotTargets (n : EventNode) (fd : ℤ) (timed : List AsyncHeapEntry) (slot : EvtSlot) :
    List StopTarget :=
  ((n.deref slot).filter EventData.live).toList.map fun d =>
    .event fd (n.slotType slot) (d.pendingIn timed)

/-- The targets in a node. -/
def nodeTargets (n : EventNode) (fd : ℤ) (timed : List AsyncHeapEntry) : List StopTarget :=
  slotTargets n fd timed .main ++ slotTargets n fd timed .aux ++ slotTargets n fd timed .ex

/-- The targets in a tree: a node comes before the nodes below it. -/
def treeTargets (N : Addr → Option EventNode) (timed : List AsyncHeapEntry) :
    ColTree RbElem → List StopTarget
  | .nil => []
  | .node _ l x r =>
      (N x.1).toList.flatMap (fun n => nodeTargets n x.2 timed) ++ treeTargets N timed l ++
        treeTargets N timed r

/-- The pending events of a node, in the order of the wait types. -/
def pendingTargets (n : EventNode) (fd : ℤ) (timed : List AsyncHeapEntry) : List StopTarget :=
  [WaitType.read, .write, .exception].flatMap fun wt =>
    (n.pending wt).toList.map fun d => .event fd wt (d.pendingIn timed)

/-- **The slots in use are the pending events**, one for each wait type. -/
theorem nodeTargets_perm {n : EventNode} (h : n.Wf) (fd : ℤ) (timed : List AsyncHeapEntry) :
    (nodeTargets n fd timed).Perm (pendingTargets n fd timed) := by
  simp only [nodeTargets, pendingTargets, slotTargets, List.flatMap_cons, List.flatMap_nil,
    List.append_nil, EventNode.pending_read, EventNode.pending_write, EventNode.pending_exception,
    EventNode.slotType, EventNode.deref]
  cases hty : n.mainEvType with
  | empty =>
      have hvac := h hty
      simp only [EventNode.rdWrVacant, Bool.and_eq_true, Bool.not_eq_true'] at hvac
      have hmain : (some n.mainEvent).filter EventData.live = none :=
        EventNode.filter_live_of_vacant (by simpa using hvac.1)
      rw [hmain, EventNode.filter_live_of_vacant hvac.2]
      exact .refl _
  | read =>
      rw [List.append_assoc]
      exact .refl _
  | write =>
      rw [← List.append_assoc]
      exact List.perm_append_comm.append_right _

/-- The timed events of a node have their entries in the heap. -/
def EventNode.Timed (n : EventNode) (timed : List AsyncHeapEntry) : Prop :=
  ∀ slot d, n.deref slot = some d → d.live = true → 0 ≤ d.ddlHeapIdx →
    d.ddlHeapIdx.toNat < timed.length

/-- **`stop_handler`** of a slot completes the target in it, if there is one. -/
theorem stopHandler_spec (beh : Behaviour RbMem) (now : ℤ) {s : Svc RbMem} {a : Addr}
    {n : EventNode} {fd : ℤ} (hst : s.status = .stopping) (hn : s.nodes a = some n)
    (hfd : fdOf s.asyncHandlers a = some fd) (ht : n.Timed s.timed) (slot : EvtSlot) :
    ∃ s', stopHandler beh now a slot s = some s' ∧ Quiet s s' ∧
      StopRun beh now s (slotTargets n fd s.timed slot) s' := by
  unfold stopHandler slotTargets
  simp only [hn, hfd, bind, Option.bind_some]
  cases hd : n.deref slot with
  | none => exact ⟨s, rfl, .refl s, .done (.refl s)⟩
  | some d =>
      cases hlive : d.live with
      | false =>
          refine ⟨s, by simp only [hlive, Bool.false_eq_true, if_false], .refl s, ?_⟩
          rw [Option.filter, if_neg (by simp [hlive])]
          exact .done (.refl s)
      | true =>
          obtain ⟨s', hrun, hq, hstop⟩ := stopTarget_spec hst beh now
            (t := .event fd (n.slotType slot) (d.pendingIn s.timed)) hlive
          rw [Option.filter, if_pos hlive]
          refine ⟨s', ?_, hq, hstop⟩
          simp only [hlive, if_true]
          by_cases hidx : 0 ≤ d.ddlHeapIdx
          · obtain ⟨ent, hent⟩ := exists_getElem? (ht slot d hd hlive hidx)
            have hent' : (s.signal d.status .stopped).timed[d.ddlHeapIdx.toNat]? = some ent := by
              rw [signal_eq]
              exact hent
            have hsig :
              StopTarget.signal now (.event fd (n.slotType slot) (d.pendingIn s.timed)) s =
                (s.signal d.status .stopped).setInt ent.remaining
                  (remainingTime ent.deadline now) := by
              rw [signal_eq]
              simp [StopTarget.signal, StopTarget.timer, EventData.pendingIn, hidx, hent,
                signalRemaining, setInt, StopTarget.status]
            rw [hsig] at hrun
            simp only [if_pos hidx, hent', Option.map_some, Option.bind_some]
            exact hrun
          · have hsig :
              StopTarget.signal now (.event fd (n.slotType slot) (d.pendingIn s.timed)) s =
                s.signal d.status .stopped := by
              rw [signal_eq]
              simp [StopTarget.signal, StopTarget.timer, EventData.pendingIn, hidx,
                signalRemaining, StopTarget.status]
            rw [hsig] at hrun
            simp only [if_neg hidx, Option.bind_some]
            exact hrun

/-- **The handlers of a node**: the three slots, one after the other. -/
theorem stopNode_spec (beh : Behaviour RbMem) (now : ℤ) {s : Svc RbMem} {a : Addr}
    {n : EventNode} {fd : ℤ} (hst : s.status = .stopping) (hn : s.nodes a = some n)
    (hfd : fdOf s.asyncHandlers a = some fd) (ht : n.Timed s.timed) :
    ∃ s₁ s₂ s₃, stopHandler beh now a .main s = some s₁ ∧ stopHandler beh now a .aux s₁ = some s₂ ∧
      stopHandler beh now a .ex s₂ = some s₃ ∧ Quiet s s₃ ∧
      StopRun beh now s (nodeTargets n fd s.timed) s₃ := by
  obtain ⟨s₁, hrun₁, hq₁, hstop₁⟩ := stopHandler_spec beh now hst hn hfd ht .main
  obtain ⟨s₂, hrun₂, hq₂, hstop₂⟩ := stopHandler_spec beh now (s := s₁) (hq₁.status.trans hst)
    (hq₁.nodes ▸ hn) (hq₁.tree ▸ hfd) (hq₁.timed ▸ ht) .aux
  have hq₁₂ := hq₁.trans hq₂
  obtain ⟨s₃, hrun₃, hq₃, hstop₃⟩ := stopHandler_spec beh now (s := s₂) (hq₁₂.status.trans hst)
    (hq₁₂.nodes ▸ hn) (hq₁₂.tree ▸ hfd) (hq₁₂.timed ▸ ht) .ex
  rw [hq₁.timed] at hstop₂
  rw [hq₁₂.timed] at hstop₃
  exact ⟨s₁, s₂, s₃, hrun₁, hrun₂, hrun₃, hq₁₂.trans hq₃, (hstop₁.append hstop₂).append hstop₃⟩

/-! ### The tree -/

/-- **Frame rule**: a change away from the nodes of a tree keeps its links. -/
theorem LinkedTree.frame {m m' : RbMem} {t : ColTree RbElem} (h : LinkedTree m t)
    (hm : ∀ a ∈ addrs t, m'.node a = m.node a) : LinkedTree m' t := by
  induction t with
  | nil => trivial
  | node red l x r ihl ihr =>
      obtain ⟨⟨parent, hx⟩, hl, hr⟩ := h
      simp only [addrs, toList, List.map_append, List.map_cons, List.mem_append,
        List.mem_cons] at hm
      refine ⟨⟨parent, (hm x.1 (by simp)).trans hx⟩, ihl hl fun a ha => hm a (.inl ha),
        ihr hr fun a ha => hm a (.inr (.inr ha))⟩

/-- The targets of a tree depend on its nodes only. -/
theorem treeTargets_congr {N N' : Addr → Option EventNode} (timed : List AsyncHeapEntry)
    {t : ColTree RbElem} (h : ∀ a ∈ addrs t, N' a = N a) :
    treeTargets N' timed t = treeTargets N timed t := by
  induction t with
  | nil => rfl
  | node red l x r ihl ihr =>
      simp only [addrs, toList, List.map_append, List.map_cons, List.mem_append,
        List.mem_cons] at h
      rw [treeTargets, treeTargets, h x.1 (by simp), ihl fun a ha => h a (.inl ha),
        ihr fun a ha => h a (.inr (.inr ha))]

/-- **The nodes at the addresses `A` have been stopped**: they are freed, and the others are as
they were. -/
structure Stopped (A : List Addr) (s s' : Svc RbMem) : Prop where
  same : s' = { s with
    alloc := s'.alloc
    timedEventsHeap := s'.timedEventsHeap
    asyncHandlers := { s.asyncHandlers with node := s'.asyncHandlers.node }
    nodes := s'.nodes
    clock := s'.clock
    ints := s'.ints
    errs := s'.errs
    log := s'.log }
  timed : s'.timed = s.timed
  clock : s.clock ≤ s'.clock
  freed : ∀ a ∈ A, s'.nodes a = none ∧ s'.asyncHandlers.node a = none
  kept : ∀ a, a ∉ A → s'.nodes a = s.nodes a ∧ s'.asyncHandlers.node a = s.asyncHandlers.node a

/-- The walk keeps the status. -/
theorem Stopped.status {A : List Addr} {s s' : Svc RbMem} (h : Stopped A s s') :
    s'.status = s.status := by
  rw [h.same]

/-- Two walks after one another release the nodes of both. -/
theorem Stopped.trans {A B : List Addr} {s₁ s₂ s₃ : Svc RbMem} (h₁ : Stopped A s₁ s₂)
    (h₂ : Stopped B s₂ s₃) : Stopped (A ++ B) s₁ s₃ := by
  refine ⟨?_, h₂.timed.trans h₁.timed, h₁.clock.trans h₂.clock, fun a ha => ?_, fun a ha => ?_⟩
  · rw [h₂.same, h₁.same]
  · by_cases hb : a ∈ B
    · exact h₂.freed a hb
    · rw [(h₂.kept a hb).1, (h₂.kept a hb).2]
      exact h₁.freed a ((List.mem_append.mp ha).resolve_right hb)
  · rw [List.mem_append, not_or] at ha
    obtain ⟨hn₁, hl₁⟩ := h₁.kept a ha.1
    obtain ⟨hn₂, hl₂⟩ := h₂.kept a ha.2
    exact ⟨hn₂.trans hn₁, hl₂.trans hl₁⟩

/-- A node is freed after others, when its handlers have been called and its blocks freed. -/
theorem Stopped.free {A : List Addr} {s s₀ s' : Svc RbMem} {a : Addr} {n : EventNode}
    (hq : Quiet s s₀) (h : Stopped A { s₀ with nodes := Function.update s₀.nodes a (some n) } s') :
    Stopped (a :: A) s { s' with
      asyncHandlers := s'.asyncHandlers.free a
      nodes := Function.update s'.nodes a none } := by
  refine ⟨?_, h.timed.trans hq.timed, hq.clock.trans h.clock, fun b hb => ?_, fun b hb => ?_⟩
  · rw [h.same, hq.same]
    rfl
  · by_cases hba : b = a
    · rw [hba]
      exact ⟨Function.update_self .., Function.update_self ..⟩
    · simp only [RbMem.free, Function.update_of_ne hba]
      exact h.freed b ((List.mem_cons.mp hb).resolve_left hba)
  · rw [List.mem_cons, not_or] at hb
    obtain ⟨hn, hl⟩ := h.kept b hb.2
    simp only [RbMem.free, Function.update_of_ne hb.1]
    rw [hn, hl, ← hq.nodes, ← hq.tree]
    exact ⟨Function.update_of_ne hb.1 .., rfl⟩

/-- Only which nodes are released matters, not their order. -/
theorem Stopped.congr {A B : List Addr} {s s' : Svc RbMem} (h : Stopped A s s')
    (hmem : ∀ a, a ∈ A ↔ a ∈ B) : Stopped B s s' :=
  ⟨h.same, h.timed, h.clock, fun a ha => h.freed a ((hmem a).mpr ha),
    fun a ha => h.kept a fun hc => ha ((hmem a).mp hc)⟩

/-- **The events of a tree** are completed, once each, and its nodes freed. -/
theorem stopAsyncOps_spec (beh : Behaviour RbMem) (now : ℤ) {t : ColTree RbElem} {fuel : ℕ}
    {s : Svc RbMem} (hst : s.status = .stopping) (hl : LinkedTree s.asyncHandlers t)
    (hnd : (addrs t).Nodup) (hnodes : ∀ a ∈ addrs t, ∃ n, s.nodes a = some n ∧ n.Timed s.timed)
    (hfuel : t.toList.length ≤ fuel) :
    ∃ s', stopAsyncOps beh now fuel (ptr t) s = some s' ∧ Stopped (addrs t) s s' ∧
      StopRun beh now s (treeTargets s.nodes s.timed t) s' := by
  induction t generalizing fuel s with
  | nil =>
      refine ⟨s, by simp [stopAsyncOps], ⟨rfl, rfl, le_rfl, by simp [addrs, toList], by simp⟩, ?_⟩
      exact .done (.refl s)
  | node red l x r ihl ihr =>
      obtain ⟨⟨parent, hx⟩, hll, hlr⟩ := hl
      simp only [addrs, toList, List.map_append, List.map_cons, List.nodup_append',
        List.nodup_cons, List.disjoint_cons_right] at hnd
      obtain ⟨hndl, ⟨hxr, hndr⟩, hxl, hdisj⟩ := hnd
      simp only [addrs, toList, List.map_append, List.map_cons, List.mem_append,
        List.mem_cons] at hnodes
      obtain ⟨fuel, rfl⟩ : ∃ k, fuel = k + 1 := ⟨fuel - 1, by
        simp only [toList, List.length_append, List.length_cons] at hfuel
        omega⟩
      simp only [toList, List.length_append, List.length_cons] at hfuel
      obtain ⟨n, hn, ht⟩ := hnodes x.1 (by simp)
      have hfd : fdOf s.asyncHandlers x.1 = some x.2 := by simp [fdOf, hx]
      obtain ⟨s₁, s₂, s₃, hrun₁, hrun₂, hrun₃, hq, hstop⟩ := stopNode_spec beh now hst hn hfd ht
      -- the blocks of the node are freed before its children are visited
      have hn₃ : s₃.nodes x.1 = some n := hq.nodes ▸ hn
      have hx₃ : s₃.asyncHandlers.node x.1 = some ⟨red, parent, ptr l, ptr r, x.2⟩ := hq.tree ▸ hx
      obtain ⟨s₄, hs₄⟩ : ∃ s₄, s₄ = { s₃ with
        nodes := Function.update s₃.nodes x.1
          (some { n with auxEvent := none, exEvent := none }) } := ⟨_, rfl⟩
      have hmod : s₃.modifyNode x.1 (fun n => { n with auxEvent := none, exEvent := none }) =
          some s₄ := by simp [modifyNode, hn₃, hs₄]
      have hnode₄ : ∀ {a}, a ≠ x.1 → s₄.nodes a = s.nodes a := fun ha => by
        rw [hs₄, ← hq.nodes]
        exact Function.update_of_ne ha ..
      have htree₄ : s₄.asyncHandlers = s.asyncHandlers := by
        rw [hs₄]
        exact hq.tree
      have htimed₄ : s₄.timed = s.timed := by
        rw [hs₄]
        exact hq.timed
      have hst₄ : s₄.status = .stopping := by
        rw [hs₄]
        exact hq.status.trans hst
      have hnel : ∀ a ∈ addrs l, a ≠ x.1 := by
        rintro a ha rfl
        exact hxl ha
      have hner : ∀ a ∈ addrs r, a ≠ x.1 := by
        rintro a ha rfl
        exact hxr ha
      obtain ⟨s₅, hrun₅, hd₅, hstop₅⟩ := ihl hst₄ (by rwa [htree₄]) hndl
        (fun a ha => by
          rw [hnode₄ (hnel a ha), htimed₄]
          exact hnodes a (.inl ha)) (show l.toList.length ≤ fuel by omega)
      have hx₅ : s₅.asyncHandlers.node x.1 = some ⟨red, parent, ptr l, ptr r, x.2⟩ := by
        rw [(hd₅.kept x.1 hxl).2, htree₄, hx]
      have hkept₅ : ∀ a ∈ addrs r, s₅.nodes a = s.nodes a ∧
          s₅.asyncHandlers.node a = s.asyncHandlers.node a := fun a ha => by
        obtain ⟨h₁, h₂⟩ := hd₅.kept a fun hal => hdisj hal ha
        exact ⟨h₁.trans (hnode₄ (hner a ha)), by rw [h₂, htree₄]⟩
      obtain ⟨s₆, hrun₆, hd₆, hstop₆⟩ := ihr (hd₅.status.trans hst₄)
        (hlr.frame fun a ha => (hkept₅ a ha).2) hndr
        (fun a ha => by
          rw [(hkept₅ a ha).1, hd₅.timed, htimed₄]
          exact hnodes a (.inr (.inr ha))) (show r.toList.length ≤ fuel by omega)
      refine ⟨{ s₆ with
        asyncHandlers := s₆.asyncHandlers.free x.1
        nodes := Function.update s₆.nodes x.1 none }, ?_, ?_, ?_⟩
      · have hx₄ : s₄.asyncHandlers.node x.1 = some ⟨red, parent, ptr l, ptr r, x.2⟩ := by
          rw [htree₄, hx]
        simp only [ptr_node, stopAsyncOps, hrun₁, hrun₂, hrun₃, hmod, hx₄, hrun₅, hx₅, hrun₆, bind,
          Option.bind_some]
      · refine (Stopped.free hq (hs₄ ▸ hd₅.trans hd₆)).congr fun a => ?_
        simp only [addrs, toList, List.map_append, List.map_cons, List.mem_append, List.mem_cons]
        exact or_left_comm
      · have h₄ : SameVars s₃ s₄ := by
          rw [hs₄]
          exact ⟨rfl, rfl, rfl, rfl, rfl⟩
        have h₆ : SameVars s₆ { s₆ with
          asyncHandlers := s₆.asyncHandlers.free x.1
          nodes := Function.update s₆.nodes x.1 none } := ⟨rfl, rfl, rfl, rfl, rfl⟩
        rw [treeTargets_congr (N := s.nodes) _ (fun a ha => hnode₄ (hnel a ha)), htimed₄] at hstop₅
        rw [treeTargets_congr (N := s.nodes) _ (fun a ha => (hkept₅ a ha).1), hd₅.timed,
          htimed₄] at hstop₆
        have hhead : (s.nodes x.1).toList.flatMap (fun n => nodeTargets n x.2 s.timed) =
            nodeTargets n x.2 s.timed := by simp [hn]
        rw [treeTargets, hhead]
        have htail : StopRun beh now s₆ [] _ := .done h₆
        simpa using ((hstop.append (hstop₅.of_same h₄)).append hstop₆).append htail

/-! ### The log -/

/-- The handler that a log entry says was called, and why. -/
def Obs.called : Obs → Option (Cause × IoHandler)
  | .invoked cause hnd _ _ _ => some (cause, hnd)
  | _ => none

/-- **The log of a stop** has one entry for each target, in their order. -/
theorem StopRun.log {beh : Behaviour RbMem} {now : ℤ} {s s' : Svc RbMem} {ts : List StopTarget}
    (h : StopRun beh now s ts s') (hst : s.status = .stopping) :
    ∃ obs, s'.log = obs ++ s.log ∧
      obs.reverse.map Obs.called = ts.map fun t => some (t.cause now, t.handler) := by
  induction h with
  | done h => exact ⟨[], h.log, rfl⟩
  | @stop s s₁ s₂ s' t ts h hrun _ ih =>
      have hst₁ : (t.signal now s₁).status = .stopping := h.status.trans hst
      obtain ⟨s₂', hrun', hidle⟩ := callHandler_stopping hst₁ beh (t.cause now)
        (isSome_of_callHandler hrun)
      obtain rfl := Option.some.inj (hrun.symm.trans hrun')
      have hst₂ : s₂.status = .stopping := by
        rw [hidle.same]
        exact hst₁
      have hlog₂ : s₂.log = .invoked (t.cause now) t.handler (t.signal now s₁).clock
          (t.signal now s₁).ints (t.signal now s₁).errs :: s.log := by
        rw [hidle.same, ← h.log]
        rfl
      obtain ⟨obs, hlog, hcalled⟩ := ih hst₂
      refine ⟨obs ++ [_], by rw [hlog, hlog₂, List.append_assoc]; rfl, ?_⟩
      rw [List.reverse_append, List.map_append, hcalled]
      rfl

/-! ### The whole stop -/

/-- **A state that can be stopped**: the child links from the root spell out a tree whose nodes
have their storage, the delayed handlers can be called, and every timed event has its entry in
the heap, with a deadline that an `int` timeout can have set. -/
structure StopReady (s : Svc RbMem) (T : ColTree RbElem) : Prop where
  root : s.asyncHandlers.root = ptr T
  linked : LinkedTree s.asyncHandlers T
  nodup : (addrs T).Nodup
  below : ∀ a ∈ addrs T, a < s.asyncHandlers.top
  stored : ∀ a ∈ addrs T, (s.nodes a).isSome
  delays : ∀ ent ∈ s.timedHandlersHeap.data, ent.handler.callback.isSome
  timers : ∀ a ∈ addrs T, ∀ n slot d, s.nodes a = some n → n.deref slot = some d →
    d.live = true → 0 ≤ d.ddlHeapIdx → ∃ e, s.timed[d.ddlHeapIdx.toNat]? = some e ∧
      e.ioOpData = a ∧ e.eventType = n.slotType slot
  deadlines : ∀ e ∈ s.timed, e.deadline ≤ s.clock + (2 ^ 31 - 1)

/-- The remaining time of a deadline that an `int` timeout can have set is exact. -/
theorem remainingTime_toInt {deadline now : ℤ} (h : deadline ≤ now + (2 ^ 31 - 1)) :
    (remainingTime deadline now).toInt = max 0 (deadline - now) := by
  unfold remainingTime
  split
  next hlt =>
    rw [Int32.toInt_ofInt_of_le (by omega) (by omega), max_eq_right (by omega)]
  next hge =>
    rw [max_eq_left (by omega)]
    rfl

/-- A target in a tree is a target in one of its nodes. -/
theorem mem_treeTargets {N : Addr → Option EventNode} {timed : List AsyncHeapEntry}
    {T : ColTree RbElem} {t : StopTarget} (ht : t ∈ treeTargets N timed T) :
    ∃ x ∈ T.toList, ∃ n, N x.1 = some n ∧ t ∈ nodeTargets n x.2 timed := by
  induction T with
  | nil => cases ht
  | node red l x r ihl ihr =>
      rw [treeTargets, List.mem_append, List.mem_append] at ht
      rcases ht with (ht | ht) | ht
      · obtain ⟨n, hn, ht⟩ := List.mem_flatMap.mp ht
        exact ⟨x, by simp [toList], n, Option.mem_toList.mp hn, ht⟩
      · obtain ⟨y, hy, hrest⟩ := ihl ht
        exact ⟨y, by simp [toList, hy], hrest⟩
      · obtain ⟨y, hy, hrest⟩ := ihr ht
        exact ⟨y, by simp [toList, hy], hrest⟩

/-- A target in a node is the pending event of a storage slot. -/
theorem mem_nodeTargets {n : EventNode} {fd : ℤ} {timed : List AsyncHeapEntry} {t : StopTarget}
    (ht : t ∈ nodeTargets n fd timed) : ∃ slot d, n.deref slot = some d ∧ d.live = true ∧
      t = .event fd (n.slotType slot) (d.pendingIn timed) := by
  obtain ⟨slot, ht⟩ : ∃ slot, t ∈ slotTargets n fd timed slot := by
    rw [nodeTargets, List.mem_append, List.mem_append] at ht
    exact ht.elim (fun h => h.elim (fun h => ⟨_, h⟩) fun h => ⟨_, h⟩) fun h => ⟨_, h⟩
  obtain ⟨d, hd, rfl⟩ := List.mem_map.mp ht
  obtain ⟨hd, hlive⟩ := Option.filter_eq_some_iff.mp (Option.mem_toList.mp hd)
  exact ⟨slot, d, hd, hlive, rfl⟩

/-- The timer of a target in a tree is that of an entry of the heap. -/
theorem timer_of_treeTargets {N : Addr → Option EventNode} {timed : List AsyncHeapEntry}
    {T : ColTree RbElem} {t : StopTarget} (ht : t ∈ treeTargets N timed T) {deadline : ℤ} {p : Addr}
    (hp : t.timer = some (deadline, p)) : ∃ e ∈ timed, e.deadline = deadline ∧ e.remaining = p := by
  obtain ⟨x, -, n, -, ht⟩ := mem_treeTargets ht
  obtain ⟨slot, d, -, -, rfl⟩ := mem_nodeTargets ht
  simp only [StopTarget.timer, EventData.pendingIn] at hp
  split at hp
  · obtain ⟨e, he, hpair⟩ := Option.map_eq_some_iff.mp hp
    obtain ⟨rfl, rfl⟩ := Prod.mk.inj hpair
    exact ⟨e, List.mem_of_getElem? he, rfl, rfl⟩
  · cases hp

/-- **What the stop does**: it completes the delayed handlers, then the events of the tree, and
leaves nothing. -/
theorem StopReady.prepStop (beh : Behaviour RbMem) {s : Svc RbMem} {T : ColTree RbElem}
    (hst : s.status = .stopping) (h : StopReady s T) :
    ∃ s₁ s', iosvcPrepStop beh s = some s' ∧ Quiet s s₁ ∧
      StopRun beh s₁.clock s (s.timedHandlersHeap.data.map StopTarget.delay) s₁ ∧
      StopRun beh s₁.clock s₁ (treeTargets s.nodes s.timed T) s' ∧
      s'.timedHandlersHeap.data = [] ∧ s'.timed = [] ∧ s'.pollfds.data = [] ∧
      s'.asyncHandlers.root = none ∧
      (∀ a ∈ addrs T, s'.nodes a = none ∧ s'.asyncHandlers.node a = none) ∧
      ∀ a, a ∉ addrs T → s'.nodes a = s.nodes a ∧
        s'.asyncHandlers.node a = s.asyncHandlers.node a := by
  have hfuel : s.timedHandlersHeap.data.length < s.timedHandlersHeap.data.length + 1 + 0 := by omega
  obtain ⟨s₁, hrun₁, hq, -⟩ := stopDelayed_spec beh 0 hst h.delays (Nat.zero_le _) hfuel
  obtain ⟨s₁', hrun₁', -, hstop₁⟩ := stopDelayed_spec beh s₁.clock hst h.delays
    (Nat.zero_le _) hfuel
  obtain rfl := Option.some.inj (hrun₁.symm.trans hrun₁')
  obtain ⟨s₂, hs₂⟩ : ∃ s₂, s₂ = { s₁ with timedHandlersHeap := s₁.timedHandlersHeap.clear } :=
    ⟨_, rfl⟩
  have hsame₂ : SameVars s₁ s₂ := by
    rw [hs₂]
    exact ⟨rfl, rfl, rfl, rfl, rfl⟩
  have hnodes₂ : s₂.nodes = s.nodes := by rw [hs₂, ← hq.nodes]
  have htree₂ : s₂.asyncHandlers = s.asyncHandlers := by rw [hs₂, ← hq.tree]
  have htimed₂ : s₂.timed = s.timed := by
    rw [hs₂, ← hq.timed]
    rfl
  have hlen : T.toList.length ≤ s.asyncHandlers.top := by
    simpa [addrs] using length_le_of_below h.nodup h.below
  obtain ⟨s₃, hrun₃, hd₃, hstop₃⟩ := stopAsyncOps_spec beh s₂.clock (t := T)
    (hsame₂.status.trans (hq.status.trans hst))
    (htree₂ ▸ h.linked) h.nodup
    (fun a ha => by
      obtain ⟨n, hn⟩ := Option.isSome_iff_exists.mp (h.stored a ha)
      refine ⟨n, hnodes₂ ▸ hn, fun slot d hd hlive hidx => ?_⟩
      obtain ⟨e, he, -⟩ := h.timers a ha n slot d hn hd hlive hidx
      rw [htimed₂]
      exact (List.getElem?_eq_some_iff.mp he).1)
    (show T.toList.length ≤ s₂.asyncHandlers.top + 1 by rw [htree₂]; omega)
  rw [hnodes₂, htimed₂, hsame₂.clock] at hstop₃
  have hrunAll : iosvcPrepStop beh s = some { s₃ with
      timedEventsHeap := s₃.timedEventsHeap.clear
      pollfds := s₃.pollfds.clear
      asyncHandlers := { s₃.asyncHandlers with root := none } } := by
    have hrun₃' : stopAsyncOps beh s₁.clock (s₁.asyncHandlers.top + 1) s₁.asyncHandlers.root s₂ =
        some s₃ := by
      rw [hq.tree, h.root, ← hsame₂.clock, ← htree₂]
      exact hrun₃
    simp only [iosvcPrepStop, hrun₁, bind, Option.bind_some, ← hs₂, hrun₃']
  have hstop : StopRun beh s₁.clock s₁ (treeTargets s.nodes s.timed T) { s₃ with
      timedEventsHeap := s₃.timedEventsHeap.clear
      pollfds := s₃.pollfds.clear
      asyncHandlers := { s₃.asyncHandlers with root := none } } := by
    have hend : StopRun beh s₁.clock s₃ [] { s₃ with
      timedEventsHeap := s₃.timedEventsHeap.clear
      pollfds := s₃.pollfds.clear
      asyncHandlers := { s₃.asyncHandlers with root := none } } := .done ⟨rfl, rfl, rfl, rfl, rfl⟩
    simpa using (hstop₃.of_same hsame₂).append hend
  rw [List.drop_zero] at hstop₁
  refine ⟨s₁, _, hrunAll, hq, hstop₁, hstop, ?_, rfl, rfl, rfl, hd₃.freed, fun a ha => ?_⟩
  · have hdelay : s₃.timedHandlersHeap = s₂.timedHandlersHeap := by rw [hd₃.same]
    simp only [hdelay, hs₂]
    rfl
  · obtain ⟨hnode, hlinks⟩ := hd₃.kept a ha
    exact ⟨by rw [← hnodes₂, ← hnode], by rw [← htree₂, ← hlinks]⟩

/-- **The stop completes everything.** In a stopping service `iosvc_prep_stop` returns, whatever
calls the handlers make. It calls every delayed handler and then every event's handler once and
no others (the log has one entry for each target), signals `EIO_STOPPED` through the status
pointer before each call, and, for the timed events and for no others, the remaining time
`max(0, deadline - now)`, where `now` is the time after the delayed handlers. It leaves both
heaps, the `pollfd`s and the tree empty. -/
theorem prepStop_completes (beh : Behaviour RbMem) {s : Svc RbMem} {T : ColTree RbElem}
    (hst : s.status = .stopping) (h : StopReady s T) :
    ∃ s₁ s' obs, iosvcPrepStop beh s = some s' ∧ s.clock ≤ s₁.clock ∧
      StopRun beh s₁.clock s (s.timedHandlersHeap.data.map StopTarget.delay) s₁ ∧
      StopRun beh s₁.clock s₁ (treeTargets s.nodes s.timed T) s' ∧
      (∀ x ∈ T.toList, ∀ n, s.nodes x.1 = some n → n.Wf →
        (nodeTargets n x.2 s.timed).Perm (pendingTargets n x.2 s.timed)) ∧
      (∀ t ∈ treeTargets s.nodes s.timed T, ∀ deadline p, t.timer = some (deadline, p) →
        (remainingTime deadline s₁.clock).toInt = max 0 (deadline - s₁.clock)) ∧
      s'.log = obs ++ s.log ∧
      obs.reverse.map Obs.called =
        (s.timedHandlersHeap.data.map StopTarget.delay ++ treeTargets s.nodes s.timed T).map
          (fun t => some (t.cause s₁.clock, t.handler)) ∧
      s'.timedHandlersHeap.data = [] ∧ s'.timed = [] ∧ s'.pollfds.data = [] ∧
      s'.asyncHandlers.root = none ∧ ∀ a ∈ addrs T, s'.nodes a = none := by
  obtain ⟨s₁, s', hrun, hq, hstop₁, hstop, hdelays, htimed, hpoll, hroot, hfreed, -⟩ :=
    h.prepStop beh hst
  obtain ⟨obs, hlog, hcalled⟩ := (hstop₁.append hstop).log hst
  refine ⟨s₁, s', obs, hrun, hq.clock, hstop₁, hstop,
    fun x _ n _ hwf => nodeTargets_perm hwf x.2 s.timed, fun t ht deadline p hp => ?_, hlog,
    hcalled,
    hdelays, htimed, hpoll, hroot, fun a ha => (hfreed a ha).1⟩
  obtain ⟨e, he, rfl, -⟩ := timer_of_treeTargets ht hp
  have := h.deadlines e he
  exact remainingTime_toInt (this.trans (by have := hq.clock; omega))

/-- A service with a delayed handler, a timed read of fd 2 and a write of fd 1 is being
stopped. -/
def stoppingState : Svc RbMem :=
  { (iosvcCreate ⟨fun _ => true, 2⟩ 0 (fun _ => 0) fun _ => .ok : Svc RbMem) with
    status := .stopping
    timedHandlersHeap := ⟨[⟨3, ⟨some 7, 0⟩, none⟩], 1, 0⟩
    asyncHandlers := smallTree
    nodes := fun a => if a = 0 then some ⟨.read, 0, ⟨⟨some 1, 0⟩, some 4, 0⟩, none, none⟩
      else if a = 1 then some ⟨.write, 1, ⟨⟨some 2, 0⟩, none, -1⟩, none, none⟩ else none
    pollfds := ⟨[⟨2, enqueueMask .read, 0⟩, ⟨1, enqueueMask .write, 0⟩], 2, 1⟩
    timedEventsHeap := ⟨[⟨5, 0, 0, .read⟩], 1, 0⟩ }

/-- The state is one that `iosvc_prep_stop` is called in. -/
theorem stoppingState_ready :
    StopReady stoppingState (.node false (.node true .nil (1, 1) .nil) (0, 2) .nil) where
  root := rfl
  linked := smallTree_valid.holds.repr.linked
  nodup := smallTree_valid.holds.nodup
  below := smallTree_valid.below
  stored := by decide
  delays := by decide
  timers := by
    intro a ha n slot d hn hd hlive hidx
    have hmem : a = 1 ∨ a = 0 := by simpa [addrs, toList] using ha
    rcases hmem with rfl | rfl
    · obtain rfl := Option.some.inj hn
      cases slot with
      | main =>
          obtain rfl := Option.some.inj hd
          simp at hidx
      | aux => cases hd
      | ex => cases hd
    · obtain rfl := Option.some.inj hn
      cases slot with
      | main =>
          obtain rfl := Option.some.inj hd
          exact ⟨_, rfl, rfl, rfl⟩
      | aux => cases hd
      | ex => cases hd
  deadlines := by decide

/-- Every handler tries to schedule another event; each is called once all the same. -/
theorem prepStop_completes_refusing :
    stoppingState.status = .stopping ∧ ∃ now s' obs,
      iosvcPrepStop (fun _ _ => retryScript) stoppingState = some s' ∧ s'.log = obs ∧
      obs.reverse.map Obs.called =
        [some (.delay ⟨3, ⟨some 7, 0⟩, none⟩ .stopped, ⟨some 7, 0⟩),
          some (.event 2 .read .stopped now, ⟨some 1, 0⟩),
          some (.event 1 .write .stopped now, ⟨some 2, 0⟩)] ∧
      s'.timedHandlersHeap.data = [] ∧ s'.timed = [] ∧ s'.pollfds.data = [] ∧
      s'.asyncHandlers.root = none := by
  obtain ⟨s₁, s', obs, hrun, -, -, -, -, -, hlog, hcalled, hdelay, htimed, hpoll, hroot, -⟩ :=
    prepStop_completes (fun _ _ => retryScript) (s := stoppingState) rfl stoppingState_ready
  exact ⟨rfl, s₁.clock, s', obs, hrun, by rw [hlog]; exact List.append_nil _, hcalled, hdelay,
    htimed,
    hpoll, hroot⟩

end IoEngine
