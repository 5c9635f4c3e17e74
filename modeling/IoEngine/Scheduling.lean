import Mathlib.Logic.Relation
import IoEngine.Calls

/-!
# Histories of Scheduling Calls

The tree of fds after any sequence of `iosvc_sched` and `iosvc_sched_timeout` from a new
service.

`reserve_evt_mem` writes the new node to the slot it was inserted at once more, after
`rb_insert` has returned. The slot still holds that node unless the insertion starts with a
mixed rotation, which puts another node there; the write then cuts that node's subtree off
and closes a cycle (`schedTree_broken_after_mixed`).

## Main results

* `schedTree_valid_of_straight`: **the tree under any history** of proper calls none of
  which starts with a mixed rotation: every call succeeds, and the tree is a valid
  red-black tree with exactly the scheduled fds.
-/

open BinHeap RedBlack

namespace IoEngine

open FdTree Svc LawfulFdTree

/-! ### Sequences of calls -/

/-- A scheduling call in its environment: the time that has passed and the user's variables
at the call. `iosvc_sched_timeout` is the call with a `milliseconds` pointer. -/
structure SchedCall where
  event : IoEvent
  hnd : IoHandler
  status : Ptr
  milliseconds : Option Addr
  elapsed : ℕ
  ints : Addr → Int32

namespace SchedCall

variable {τ π : Type} [FdTree τ π]

/-- The state at the call. -/
def enter (c : SchedCall) (s : Svc τ) : Svc τ :=
  { s with clock := s.clock + c.elapsed, ints := c.ints }

/-- Make the call. -/
def run (c : SchedCall) (s : Svc τ) : Option (IoErrcode × Svc τ) :=
  match c.milliseconds with
  | none => iosvcSched (c.enter s) c.event c.hnd c.status
  | some ms => iosvcSchedTimeout (c.enter s) c.event c.hnd c.status ms

/-- The call has a callback and a wait type, and its event is not pending. -/
def proper (c : SchedCall) (s : Svc τ) : Bool :=
  c.hnd.callback.isSome &&
    match c.event.waitType with
    | none => false
    | some wt => (s.view c.event.fd wt).isNone

/-- The fd has a node, or its node is inserted without a mixed rotation. -/
def straight (c : SchedCall) (s : Svc RbMem) : Bool :=
  (lookup s.asyncHandlers c.event.fd).isSome || !s.asyncHandlers.mixedInsert c.event.fd

end SchedCall

/-- Make the calls one after another, as long as they succeed. -/
def schedAll {τ π : Type} [FdTree τ π] (s : Svc τ) : List SchedCall → Option (Svc τ)
  | [] => some s
  | c :: cs =>
      match c.run s with
      | some (.ok, s) => schedAll s cs
      | _ => none

/-- Every call of a sequence has the property in the state at which it is made. -/
def eachCall {τ π : Type} [FdTree τ π] (P : SchedCall → Svc τ → Bool) (s : Svc τ) :
    List SchedCall → Bool
  | [] => true
  | c :: cs =>
      P c s &&
        match c.run s with
        | some (.ok, s) => eachCall P s cs
        | _ => true

/-- The tree is a valid red-black tree with one node for each of the fds, and the search
ends for every fd. -/
structure TreeOf (m : RbMem) (fds : List ℤ) : Prop where
  valid : ∃ T, ValidTree m T ∧ ∀ fd, fd ∈ T.toList.map Prod.snd ↔ fd ∈ fds
  probe : ∀ fd, ∃ fuel q, m.rbProbeLoop fd fuel .root none = some q

/-- What holds between the calls. -/
structure SchedInv (s : Svc RbMem) (fds : List ℤ) : Prop where
  inv : Inv [] s
  ready : s.status = .ready
  alloc : ∀ k, s.alloc.ok k = true
  nodes : ∀ fd, (lookup s.asyncHandlers fd).isSome = true ↔ fd ∈ fds

/-- Between the calls the tree has the nodes of the descriptors. -/
theorem SchedInv.treeOf {s : Svc RbMem} {fds : List ℤ} (h : SchedInv s fds) :
    TreeOf s.asyncHandlers fds := by
  obtain ⟨T, hT⟩ : RbMem.Valid s.asyncHandlers := h.inv.tree
  refine ⟨⟨T, hT, fun fd => ?_⟩, fun fd => ?_⟩
  · rw [← h.nodes fd, Option.isSome_iff_exists, List.mem_map]
    constructor
    · rintro ⟨⟨a, fd⟩, hm, rfl⟩
      exact ⟨a, hT.lookup_iff.mpr hm⟩
    · rintro ⟨a, ha⟩
      exact ⟨(a, fd), hT.lookup_iff.mp ha, rfl⟩
  · obtain ⟨q, hq, -⟩ := h.inv.probe fd
    exact ⟨_, q, hq⟩

/-- With every allocation succeeding, no node is left behind. -/
theorem blockFails_of_ok {pollfds : DynArray PollFd} {al : Alloc} (h : ∀ k, al.ok k = true) :
    blockFails pollfds al = false := by
  unfold blockFails
  split
  next => rfl
  next P al₁ hP =>
    have hok : al₁.ok = al.ok := by simpa [hP] using (emplaceBack_grows pollfds al).ok
    split
    next => rfl
    next a al₂ hm =>
      have hm' : al₂.ok = al₁.ok := by
        unfold Alloc.malloc at hm
        rw [← (Prod.mk.inj hm).2]
      simp [Alloc.malloc, hm', hok, h]

section

variable {s : Svc RbMem} {fds : List ℤ} {c : SchedCall}

/-- A straight call reaches no defect when every allocation succeeds. -/
theorem SchedCall.enqueueOk {al : Alloc} (hal : ∀ k, al.ok k = true)
    (hs : c.straight s = true) : enqueueOk (c.enter s) al c.event c.hnd = true := by
  have hd : dangles (c.enter s) al c.event c.hnd = false := by
    simp [dangles, blockFails_of_ok hal]
  have hins : (lookup (c.enter s).asyncHandlers c.event.fd).isNone = true →
      insertOk (c.enter s).asyncHandlers c.event.fd = true := by
    intro hn
    rw [Option.isNone_iff_eq_none] at hn
    rw [SchedCall.straight, show lookup s.asyncHandlers c.event.fd = none from hn] at hs
    exact hs
  rw [IoEngine.enqueueOk, hd, Bool.not_false, Bool.true_and, Bool.or_eq_true, Bool.not_eq_true']
  by_cases hn : (lookup (c.enter s).asyncHandlers c.event.fd).isNone = true
  · exact .inr (hins hn)
  · exact .inl (by simp [hn])

/-- A proper call gives no reason to be refused. -/
theorem SchedInv.not_excused (h : SchedInv s fds) (hp : c.proper s = true) :
    ¬ Excused (c.enter s) s.alloc c.event c.hnd := by
  simp only [SchedCall.proper, Bool.and_eq_true] at hp
  obtain ⟨hcb, hp⟩ := hp
  cases hwt : c.event.waitType with
  | none => simp [hwt] at hp
  | some wt =>
      simp only [hwt] at hp
      rintro (hacc | ⟨wt', hwt', hv⟩ | ⟨k, hk⟩)
      · simp [accepts, SchedCall.enter, h.ready, hcb, hwt] at hacc
      · obtain rfl : wt' = wt := Option.some.inj (hwt'.symm.trans hwt)
        rw [Option.isNone_iff_eq_none] at hp
        rw [show (c.enter s).view c.event.fd wt' = none from hp] at hv
        cases hv
      · simp [h.alloc] at hk

/-- The fds after a call. -/
theorem Scheduled.isSome_lookup {τ π : Type} [FdTree τ π] {s s' : Svc τ} {fd : ℤ} {wt : WaitType}
    {hnd : IoHandler} {status : Ptr} {timer : Option (Addr × ℤ)}
    (hs : Scheduled s s' fd wt hnd status timer) (fd' : ℤ) :
    (FdTree.lookup s'.asyncHandlers fd').isSome = true ↔
      fd' = fd ∨ (FdTree.lookup s.asyncHandlers fd').isSome = true := by
  obtain ⟨a, ha, -⟩ := hs.lookup
  rw [ha]
  by_cases hfd : fd' = fd
  · simp [hfd]
  · simp [hfd]

/-- **One call**: a proper and straight call succeeds and adds its fd to the tree. -/
theorem SchedInv.step (h : SchedInv s fds) (hp : c.proper s = true) (hs : c.straight s = true) :
    ∃ s', c.run s = some (.ok, s') ∧ SchedInv s' (c.event.fd :: fds) := by
  have hinv : Inv [] (c.enter s) := h.inv.frame rfl rfl rfl rfl le_rfl
  have hno := h.not_excused hp
  -- both kinds of call end in the same way
  have hdone : ∀ {s' : Svc RbMem} {wt timer}, Inv [] s' →
      Scheduled (c.enter s) s' c.event.fd wt c.hnd c.status timer →
      SchedInv s' (c.event.fd :: fds) := by
    intro s' wt timer hinv' hsch
    refine ⟨hinv', by rw [hsch.same]; exact h.ready, fun k => ?_, fun fd => ?_⟩
    · rw [hsch.alloc.ok]
      exact h.alloc k
    · rw [hsch.isSome_lookup, List.mem_cons, ← h.nodes fd]
      exact Iff.rfl
  unfold SchedCall.run
  cases hms : c.milliseconds with
  | none =>
      have hok : enqueueOk (c.enter s) (c.enter s).alloc c.event c.hnd = true :=
        SchedCall.enqueueOk h.alloc hs
      obtain ⟨code, s', hrun, hinv', ⟨-, -, hex⟩ | ⟨rfl, wt, -, hsch⟩⟩ := hinv.sched c.status hok
      · exact absurd hex hno
      · exact ⟨s', hrun, hdone hinv' hsch⟩
  | some ms =>
      have hok : schedTimeoutOk (c.enter s) c.event c.hnd = true := by
        unfold schedTimeoutOk
        split
        · rfl
        next heap al hgrow =>
          refine SchedCall.enqueueOk (fun k => ?_) hs
          have := (emplaceBack_grows (c.enter s).timedEventsHeap (c.enter s).alloc).ok
          rw [hgrow] at this
          rw [show al.ok = s.alloc.ok from this, h.alloc]
      obtain ⟨code, s', hrun, hinv', ⟨-, -, hex⟩ | ⟨rfl, wt, -, hsch⟩⟩ :=
        hinv.schedTimeout c.status ms hok
      · exact absurd hex hno
      · exact ⟨s', hrun, hdone hinv' hsch⟩

/-- A sequence of proper and straight calls. -/
theorem SchedInv.schedAll (h : SchedInv s fds) {cs : List SchedCall}
    (hcs : eachCall (fun c s => c.proper s && c.straight s) s cs = true) :
    ∃ s', schedAll s cs = some s' ∧ SchedInv s' ((cs.map fun c => c.event.fd).reverse ++ fds) := by
  induction cs generalizing s fds with
  | nil => exact ⟨s, rfl, h⟩
  | cons c cs ih =>
      simp only [eachCall, Bool.and_eq_true] at hcs
      obtain ⟨s₁, hrun, h₁⟩ := h.step hcs.1.1 hcs.1.2
      rw [hrun] at hcs
      obtain ⟨s', hrun', h'⟩ := ih h₁ hcs.2
      refine ⟨s', by simp only [IoEngine.schedAll, hrun, hrun'], ?_⟩
      simpa using h'

end

/-- What each call has, the calls of an initial part have. -/
theorem eachCall_take {τ π : Type} [FdTree τ π] {P : SchedCall → Svc τ → Bool} {s : Svc τ}
    {cs : List SchedCall} (h : eachCall P s cs = true) (k : ℕ) :
    eachCall P s (cs.take k) = true := by
  induction cs generalizing s k with
  | nil => simpa using h
  | cons c cs ih =>
      cases k with
      | zero => rfl
      | succ k =>
          simp only [eachCall, Bool.and_eq_true, List.take_succ_cons] at h ⊢
          refine ⟨h.1, ?_⟩
          split
          next hrun =>
            rw [hrun] at h
            exact ih h.2 k
          next => rfl

/-- A new service, with every allocation succeeding. -/
def newService (clock : ℕ) (ints : Addr → Int32) (errs : Addr → IoErrcode) : Svc RbMem :=
  iosvcCreate ⟨fun _ => true, 0⟩ clock ints errs

/-- Nothing is scheduled in a new service. -/
theorem schedInv_new (clock : ℕ) (ints : Addr → Int32) (errs : Addr → IoErrcode) :
    SchedInv (newService clock ints errs) [] :=
  ⟨inv_create .., rfl, fun _ => rfl, fun fd => by simp [newService, iosvcCreate, lookup_empty]⟩

/-- A sequence of proper and straight calls in a new service. -/
theorem schedAll_new (cs : List SchedCall) (h : eachCall (fun c s => c.proper s && c.straight s)
    (newService 0 (fun _ => 0) fun _ => .ok) cs = true) :
    ∃ s fds, schedAll (newService 0 (fun _ => 0) fun _ => .ok) cs = some s ∧ SchedInv s fds := by
  obtain ⟨s, hs, hinv⟩ := (schedInv_new 0 (fun _ => 0) fun _ => .ok).schedAll h
  exact ⟨s, _, hs, hinv⟩

/-- **The tree under any history of scheduling.** After every call of every sequence of
proper calls from a new service, none of which inserts its fd with a mixed rotation, the
call has succeeded, and the tree is a valid red-black tree with one node for each of the
fds so far. -/
theorem schedTree_valid_of_straight (clock : ℕ) (ints : Addr → Int32) (errs : Addr → IoErrcode)
    (cs : List SchedCall) (h : eachCall (fun c s => c.proper s && c.straight s)
      (newService clock ints errs) cs = true) (k : ℕ) :
    ∃ s, schedAll (newService clock ints errs) (cs.take k) = some s ∧
      TreeOf s.asyncHandlers ((cs.take k).map fun c => c.event.fd) := by
  obtain ⟨s, hrun, hs⟩ := (schedInv_new clock ints errs).schedAll (eachCall_take h k)
  refine ⟨s, hrun, ?_, hs.treeOf.probe⟩
  obtain ⟨T, hT, hfds⟩ := hs.treeOf.valid
  exact ⟨T, hT, fun fd => by rw [hfds]; simp⟩

/-- A call of `iosvc_sched` for a read. -/
def readCall (fd : ℤ) : SchedCall :=
  ⟨⟨fd, some .read⟩, ⟨some 0, 0⟩, none, none, 0, fun _ => 0⟩

/-- Three fds in ascending order, of which the last one is inserted with a simple rotation. -/
theorem schedTree_valid_of_straight_ascending :
    eachCall (fun c s => c.proper s && c.straight s) (newService 0 (fun _ => 0) fun _ => .ok)
      [readCall 1, readCall 2, readCall 3] = true ∧
    ∃ s, schedAll (newService 0 (fun _ => 0) fun _ => .ok)
        ([readCall 1, readCall 2, readCall 3].take 3) = some s ∧
      TreeOf s.asyncHandlers
        (([readCall 1, readCall 2, readCall 3].take 3).map fun c => c.event.fd) := by
  have h : eachCall (fun c s => c.proper s && c.straight s)
      (newService 0 (fun _ => 0) fun _ => .ok) [readCall 1, readCall 2, readCall 3] = true := by
    decide
  exact ⟨h, schedTree_valid_of_straight 0 _ _ _ h 3⟩

/-- The search goes round in a cycle of two nodes for ever. -/
theorem rbProbeLoop_cycle {m : RbMem} {a b : Addr} {n k : RbLinks} {fd : ℤ}
    (ha : m.node a = some n) (hb : m.node b = some k) (hr : n.right = some b)
    (hl : k.left = some a) (hn : n.fd < fd) (hk : fd < k.fd) (fuel : ℕ) (par : Ptr) :
    m.rbProbeLoop fd fuel (.child a .right) par = none ∧
      m.rbProbeLoop fd fuel (.child b .left) par = none := by
  induction fuel generalizing par with
  | zero => exact ⟨rfl, rfl⟩
  | succ fuel ih =>
      have hn' : n.fd ≠ fd := hn.ne
      have hk' : k.fd ≠ fd := hk.ne'
      constructor
      · simpa [RbMem.rbProbeLoop, RbMem.load, ha, RbLinks.child, hr, hb, hk', hk.not_gt] using
          (ih (some b)).2
      · simpa [RbMem.rbProbeLoop, RbMem.load, hb, RbLinks.child, hl, ha, hn', hn] using
          (ih (some a)).1

/-- Fds 1, 5 and 3 in this order: the search for 4 goes round between the nodes of 3 and 5. -/
theorem schedTree_broken_after_mixed :
    ¬ ∀ (clock : ℕ) (ints : Addr → Int32) (errs : Addr → IoErrcode) (cs : List SchedCall),
      eachCall (fun c s => c.proper s) (newService clock ints errs) cs = true →
      ∀ k s, schedAll (newService clock ints errs) (cs.take k) = some s →
        TreeOf s.asyncHandlers ((cs.take k).map fun c => c.event.fd) := by
  intro h
  have hbad : (schedAll (newService 0 (fun _ => 0) fun _ => .ok)
      ([readCall 1, readCall 5, readCall 3].take 3)).map
        (fun s => (s.asyncHandlers.root, s.asyncHandlers.node 5, s.asyncHandlers.node 3)) =
      some (some 5, some ⟨false, none, some 1, some 3, 3⟩,
        some ⟨true, some 5, some 5, none, 5⟩) := by decide
  obtain ⟨s, hs, hobs⟩ := Option.map_eq_some_iff.mp hbad
  simp only [Prod.mk.injEq] at hobs
  obtain ⟨hroot, h₃, h₅⟩ := hobs
  obtain ⟨fuel, q, hq⟩ :=
    (h 0 _ _ [readCall 1, readCall 5, readCall 3] (by decide) 3 s hs).probe 4
  cases fuel with
  | zero => cases hq
  | succ fuel =>
      have hcycle := (rbProbeLoop_cycle h₃ h₅ rfl rfl (show (3 : ℤ) < 4 by decide)
        (show (4 : ℤ) < 5 by decide) fuel (some 5)).1
      rw [RbMem.rbProbeLoop] at hq
      simp [RbMem.load, hroot, h₃, hcycle] at hq

end IoEngine
