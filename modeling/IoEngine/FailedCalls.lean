import IoEngine.Calls

/-!
# Failed Calls

A posting or scheduling call that returns an error code leaves the queue, the heaps, the
`pollfd`s, the tree and the events of its nodes as they were, with one exception: when the
block for the exception event of a new fd cannot be allocated, `reserve_evt_mem` frees the
new node and then writes it to the tree slot all the same.

## Main results

* `failedCall_unchanged_iff`: in every consistent state, for every call and every pattern
  of allocation failures, a failing call is **without effect exactly when** it is not that
  one.
-/

open BinHeap

namespace IoEngine

open FdTree Svc LawfulFdTree

/-- The call is one of those that post or schedule. -/
def ApiCall.adds : ApiCall → Bool
  | .post _ | .postDelay .. | .sched .. | .schedTimeout .. => true
  | _ => false

/-- The call is for the exception event of an fd without a node, and of the allocations it
makes exactly that of the event block fails. -/
def callDangles {τ π : Type} [FdTree τ π] (s : Svc τ) : ApiCall → Bool
  | .sched event hnd _ => dangles s s.alloc event hnd
  | .schedTimeout event hnd _ _ =>
      match s.timedEventsHeap.emplaceBack s.alloc with
      | (none, _) => false
      | (some _, al) => dangles s al event hnd
  | _ => false

section

variable {τ π : Type} [FdTree τ π]

/-- A posting call that fails has no effect. -/
theorem post_unchanged {s s' : Svc τ} {hnd : IoHandler} {code : IoErrcode}
    (h : iosvcPost s hnd = (code, s')) (hc : code ≠ .ok) : Unchanged s s' := by
  unfold iosvcPost at h
  split at h
  · obtain ⟨-, rfl⟩ := Prod.mk.inj h
    exact ⟨rfl, rfl, rfl, .refl _⟩
  split at h
  · obtain ⟨-, rfl⟩ := Prod.mk.inj h
    exact ⟨rfl, rfl, rfl, .refl _⟩
  split at h
  next al hp =>
    obtain ⟨-, rfl⟩ := Prod.mk.inj h
    refine ⟨rfl, rfl, rfl, ?_⟩
    unfold CBuffer.push at hp
    split at hp
    · obtain hm | hm := malloc_eq s.alloc <;> simp only [hm, Prod.mk.injEq] at hp
      · rw [← hp.2]
        exact .succ _
      · simp at hp
    · simp at hp
  next => exact absurd (Prod.mk.inj h).1.symm hc

/-- A delayed posting call that fails has no effect. -/
theorem postDelay_unchanged {s s' : Svc τ} {hnd : IoHandler} {status : Ptr} {ms : Int32}
    {code : IoErrcode} (h : iosvcPostDelay s hnd status ms = some (code, s')) (hc : code ≠ .ok) :
    Unchanged s s' := by
  unfold iosvcPostDelay at h
  split at h
  · obtain ⟨-, rfl⟩ := Prod.mk.inj (Option.some.inj h)
    exact ⟨rfl, rfl, rfl, .refl _⟩
  split at h
  · obtain ⟨-, rfl⟩ := Prod.mk.inj (Option.some.inj h)
    exact ⟨rfl, rfl, rfl, .refl _⟩
  split at h
  next al hp =>
    obtain ⟨-, rfl⟩ := Prod.mk.inj (Option.some.inj h)
    have := emplaceBack_grows s.timedHandlersHeap s.alloc
    rw [hp] at this
    exact ⟨rfl, rfl, rfl, this⟩
  next =>
    obtain ⟨l, -, h⟩ := Option.bind_eq_some_iff.mp h
    exact absurd (Prod.mk.inj (Option.some.inj h)).1.symm hc

end

section

variable {V : List ℤ} {s : Svc RbMem}

/-- A freed node can be written to the slot found for an fd without a node. -/
theorem exists_store_freed {m : RbMem} (fd : ℤ) {a : Addr} {place : RbPlace × Ptr}
    (hl : load m place = some none) (ha : m.node a = none) :
    ∃ m', store (free (makeRbnode m a fd) a) place a = some m' ∧
      load m' place = some (some a) := by
  obtain ⟨place, par⟩ := place
  cases place with
  | root => exact ⟨_, rfl, rfl⟩
  | child b d =>
      obtain ⟨n, hn, -⟩ : ∃ n, m.node b = some n ∧ n.child d = none := by
        simpa [load, RbMem.load] using hl
      have hba : b ≠ a := by
        rintro rfl
        rw [ha] at hn
        cases hn
      have hfreed : ((m.makeRbnode a fd).free a).node b = some n := by
        simp [RbMem.free, RbMem.makeRbnode, hba, hn]
      refine ⟨{ (m.makeRbnode a fd).free a with
        node := (Function.update ((m.makeRbnode a fd).free a).node b
          (some (n.setChild d (some a)))) }, ?_, ?_⟩
      · simp only [store, free, makeRbnode, RbMem.store, RbMem.modify, hfreed, Option.map_some]
      · cases d <;> simp [load, RbMem.load, RbLinks.setChild, RbLinks.child]

/-- An address not handed out yet is not in the tree. -/
theorem Inv.node_fresh (h : Inv V s) {a : Addr} (ha : s.alloc.next ≤ a) :
    s.asyncHandlers.node a = none := by
  cases hn : s.asyncHandlers.node a with
  | none => rfl
  | some n =>
      have hfd : fdOf s.asyncHandlers a = some n.fd := by simp [fdOf, hn]
      have := h.fresh a ((h.dom a).mpr ⟨n.fd, (fdOf_iff h.tree).mp hfd⟩)
      exact absurd ha this.not_ge

/-- An enqueue that leaves a freed node behind returns, with a link to that node. -/
theorem Inv.enqueue_broken (h : Inv V s) (heap : DynArray AsyncHeapEntry) {al : Alloc}
    (hal : s.alloc.Grows al) {event : IoEvent} {hnd : IoHandler} (status : Ptr)
    (hd : dangles s al event hnd = true) :
    ∃ s', iosvcEnqueue (s.withSlot heap al) event hnd status = some (.nomem, none, s') ∧
      s'.asyncHandlers ≠ s.asyncHandlers := by
  obtain ⟨place, a, s', -, ha, hl, hrun⟩ := h.enqueue_dangling heap status hd
  obtain ⟨m', hst, hl'⟩ :=
    exists_store_freed event.fd hl (h.node_fresh (hal.next.trans ha))
  refine ⟨{ s' with asyncHandlers := m', timedEventsHeap := heap }, by rw [hrun, hst]; rfl, ?_⟩
  intro he
  have he' : m' = s.asyncHandlers := he
  rw [he', hl] at hl'
  cases hl'

/-- A scheduling call that fails is without effect exactly when it leaves no freed node. -/
theorem Inv.sched_unchanged_iff (h : Inv V s) (event : IoEvent) (hnd : IoHandler) (status : Ptr) :
    (∀ code s', iosvcSched s event hnd status = some (code, s') → code ≠ .ok → Unchanged s s') ↔
      dangles s s.alloc event hnd = false := by
  constructor
  · intro hall
    rw [Bool.eq_false_iff]
    intro hd
    obtain ⟨s', hrun, hne⟩ := h.enqueue_broken s.timedEventsHeap (.refl _) status hd
    have hrun' : iosvcSched s event hnd status = some (.nomem, s') := by
      rw [iosvcSched, show iosvcEnqueue s event hnd status = _ from hrun]
      rfl
    exact hne (by rw [(hall .nomem s' hrun' (by simp)).same])
  · intro hd code s' hrun hc
    cases h.enqueue_cases s.timedEventsHeap (.refl _) event hnd status with
    | @refused code' s'' hwhy hgood hcode hs hres =>
        rw [iosvcSched, show iosvcEnqueue s event hnd status = _ from hres] at hrun
        simp only [bind, Option.bind_some] at hrun
        split at hrun
        · exact absurd rfl hcode
        · obtain ⟨-, rfl⟩ := Prod.mk.inj (Option.some.inj hrun)
          exact hs.unchanged
    | dangling hd' => simp [hd] at hd'
    | @added wt hwt hacc hview hcode =>
        rw [iosvcSched] at hrun
        obtain ⟨r, hr, hrun⟩ := Option.bind_eq_some_iff.mp hrun
        obtain ⟨code', p, s''⟩ := r
        obtain rfl : code' = .ok := hcode _ hr
        simp only [hwt] at hrun
        exact absurd (Prod.mk.inj (Option.some.inj hrun)).1.symm hc

/-- A scheduling call with a timeout that fails is without effect exactly when it leaves no
freed node. -/
theorem Inv.schedTimeout_unchanged_iff (h : Inv V s) (event : IoEvent) (hnd : IoHandler)
    (status : Ptr) (ms : Addr) :
    (∀ code s', iosvcSchedTimeout s event hnd status ms = some (code, s') → code ≠ .ok →
      Unchanged s s') ↔ callDangles s (.schedTimeout event hnd status ms) = false := by
  have hnext := emplaceBack_grows s.timedEventsHeap s.alloc
  unfold iosvcSchedTimeout callDangles
  rcases hgrow : s.timedEventsHeap.emplaceBack s.alloc with ⟨_ | heap, al⟩
  · rw [hgrow] at hnext
    refine iff_of_true (fun code s' hrun _ => ?_) rfl
    obtain ⟨-, rfl⟩ := Prod.mk.inj (Option.some.inj hrun)
    exact ⟨rfl, rfl, rfl, hnext⟩
  rw [hgrow] at hnext
  have hdata : heap.data = s.timed ++ [default] := emplaceBack_data hgrow
  constructor
  · intro hall
    rw [Bool.eq_false_iff]
    intro hd
    obtain ⟨s', hrun, hne⟩ := h.enqueue_broken heap hnext status hd
    refine hne ?_
    have hu := hall .nomem { s' with timedEventsHeap := s'.timedEventsHeap.popBack } (by
      simp only [show iosvcEnqueue { s with timedEventsHeap := heap, alloc := al } event hnd status
        = _ from hrun, bind, Option.bind_some]) (by simp)
    have htree := congrArg Svc.asyncHandlers hu.same
    exact htree
  · intro hd code s' hrun hc
    obtain ⟨⟨code', p, s''⟩, hr, hrun⟩ := Option.bind_eq_some_iff.mp hrun
    cases h.enqueue_cases heap hnext event hnd status with
    | refused hwhy hgood hcode hs hres =>
        obtain ⟨rfl, rfl, rfl⟩ : code' = _ ∧ p = _ ∧ s'' = _ := by
          simpa using hr.symm.trans hres
        simp only [Option.some.injEq, Prod.mk.injEq] at hrun
        obtain ⟨-, rfl⟩ := hrun
        refine ⟨by rw [hs.same]; rfl, hs.polls, ?_, hnext.trans hs.alloc⟩
        rw [hs.same]
        show heap.data.dropLast = s.timed
        simp [hdata]
    | dangling hd' => simp [hd] at hd'
    | @added wt hwt hacc hview hcode =>
        obtain rfl : code' = .ok := hcode _ hr
        simp only [hwt] at hrun
        cases p with
        | none => exact absurd (Prod.mk.inj (Option.some.inj hrun)).1.symm hc
        | some a =>
            simp only [bind, Option.bind_eq_some_iff, Option.some.injEq, Prod.mk.injEq] at hrun
            obtain ⟨s₁, -, s₂, -, hcode', -⟩ := hrun
            exact absurd hcode'.symm hc

end

/-- **A failed call is without effect** exactly when it is not for the exception event of an
fd without a node with only the allocation of the event block failing. -/
theorem failedCall_unchanged_iff {V : List ℤ} {s : Svc RbMem} (h : Inv V s)
    (body : Svc RbMem → Option (Svc RbMem)) (c : ApiCall) (hc : c.adds = true) :
    (∀ code s', apiCall body s c = some (code, s') → code ≠ .ok → Unchanged s s') ↔
      callDangles s c = false := by
  cases c with
  | post hnd =>
      refine iff_of_true (fun code s' hrun hne => ?_) rfl
      exact post_unchanged (Option.some.inj hrun) hne
  | postDelay hnd status ms =>
      exact iff_of_true (fun code s' hrun hne => postDelay_unchanged hrun hne) rfl
  | sched event hnd status => exact h.sched_unchanged_iff event hnd status
  | schedTimeout event hnd status ms => exact h.schedTimeout_unchanged_iff event hnd status ms
  | _ => simp [ApiCall.adds] at hc

/-- A new service whose allocator fails at one attempt. -/
def serviceFailingAt (k : ℕ) : Svc RbMem :=
  iosvcCreate ⟨fun i => decide (i ≠ k), 0⟩ 0 (fun _ => 0) fun _ => .ok

/-- The exception event of fd 3 when its node cannot be allocated. -/
theorem failedCall_unchanged_noNode :
    callDangles (serviceFailingAt 1) (.sched ⟨3, some .exception⟩ ⟨some 0, 0⟩ none) = false ∧
    ∀ code s', apiCall some (serviceFailingAt 1)
      (.sched ⟨3, some .exception⟩ ⟨some 0, 0⟩ none) = some (code, s') → code ≠ .ok →
        Unchanged (serviceFailingAt 1) s' := by
  have hd : callDangles (serviceFailingAt 1)
      (.sched ⟨3, some .exception⟩ ⟨some 0, 0⟩ none) = false := by decide
  exact ⟨hd, (failedCall_unchanged_iff (V := []) (inv_create ..) some
    (.sched ⟨3, some .exception⟩ ⟨some 0, 0⟩ none) rfl).mpr hd⟩

/-- The exception event of fd 3 when its block cannot be allocated: the call fails, and the
root of the tree is then a freed node. -/
theorem failedCall_dangling_link :
    ¬ ∀ (s : Svc RbMem) (c : ApiCall), Inv [] s → c.adds = true →
      ∀ code s', apiCall some s c = some (code, s') → code ≠ .ok → Unchanged s s' := by
  intro h
  have hrun : (apiCall some (serviceFailingAt 2)
      (.sched ⟨3, some .exception⟩ ⟨some 0, 0⟩ none)).map
        (fun r => (r.1, r.2.asyncHandlers.root)) = some (.nomem, some 1) := by decide
  obtain ⟨⟨code, s'⟩, hr, hobs⟩ := Option.map_eq_some_iff.mp hrun
  obtain ⟨rfl, hroot⟩ := Prod.mk.inj hobs
  have hu := h (serviceFailingAt 2) (.sched ⟨3, some .exception⟩ ⟨some 0, 0⟩ none)
    (inv_create ..) rfl .nomem s' hr (by simp)
  rw [hu.same] at hroot
  cases hroot

end IoEngine
