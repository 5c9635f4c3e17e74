import IoEngine.Completion

/-!
# Calls While the Service Stops

While the service is `STOPPING` no call of a handler is accepted, and none has an effect on
what is pending. The traversal of the stop relies on more: it keeps pointers into the arrays
across the handlers that it calls. `iosvc_sched_timeout` takes a slot of the heap of timed
events before it is refused, so a full heap moves to another block.

## Main results

* `apiCall_stopping`: **every call is refused**, and at most a slot of the heap of timed events
  is taken and given back.
* `exec_stopping`: what a handler's calls, taken together, do.
* `stopping_keeps_heaps_iff`: **when the two heaps stay in their blocks**.
-/

namespace IoEngine

open FdTree Svc

/-! ### Taking a slot and giving it back -/

/-- An array, and the allocator, after a slot has been taken and given back. -/
def DynArray.touch {α : Type} [Inhabited α] (x : DynArray α × Alloc) : DynArray α × Alloc :=
  match x.1.emplaceBack x.2 with
  | (none, al) => (x.1, al)
  | (some dar, al) => (dar.popBack, al)

namespace DynArray

variable {α : Type} [Inhabited α] {dar : DynArray α} {al : Alloc}

/-- With room for one more element nothing happens. -/
theorem touch_room (h : dar.data.length ≠ dar.capacity) : touch (dar, al) = (dar, al) := by
  simp [touch, emplaceBack, h, popBack]

/-- A full array whose allocation fails stays as it is. -/
theorem touch_fails (h : dar.data.length = dar.capacity) (hal : al.ok al.next = false) :
    touch (dar, al) = (dar, { al with next := al.next + 1 }) := by
  simp [touch, emplaceBack, h, Alloc.malloc, hal]

/-- A full array whose allocation succeeds moves to a block of twice its size. -/
theorem touch_moves (h : dar.data.length = dar.capacity) (hal : al.ok al.next = true) :
    touch (dar, al) =
      (⟨dar.data, max (2 * dar.capacity) 1, al.next⟩, { al with next := al.next + 1 }) := by
  simp [touch, emplaceBack, h, Alloc.malloc, hal, popBack]

/-- The elements stay. -/
theorem data_touch (x : DynArray α × Alloc) : (touch x).1.data = x.1.data := by
  obtain ⟨dar, al⟩ := x
  by_cases h : dar.data.length = dar.capacity
  · cases hal : al.ok al.next with
    | false => rw [touch_fails h hal]
    | true => rw [touch_moves h hal]
  · rw [touch_room h]

/-- With room nothing happens, however often. -/
theorem touch_iterate_room (h : dar.data.length ≠ dar.capacity) (k : ℕ) :
    touch^[k] (dar, al) = (dar, al) :=
  Function.iterate_fixed (touch_room h) k

/-- **An array stays in its block** when it has room, and else as long as the allocator does
not provide another. -/
theorem touch_iterate_iff (k : ℕ) :
    (touch^[k] (dar, al)).1 = dar ↔
      dar.data.length ≠ dar.capacity ∨ ∀ j < k, al.ok (al.next + j) = false := by
  by_cases h : dar.data.length = dar.capacity
  · rw [or_iff_right (not_not_intro h)]
    induction k generalizing al with
    | zero => simp
    | succ k ih =>
        rw [Function.iterate_succ_apply]
        cases hal : al.ok al.next with
        | false =>
            rw [touch_fails h hal, ih]
            constructor
            · rintro hrest (_ | j) hj
              · exact hal
              · have := hrest j (by omega)
                rwa [show al.next + 1 + j = al.next + (j + 1) by omega] at this
            · intro hall j hj
              have := hall (j + 1) (by omega)
              rwa [show al.next + (j + 1) = al.next + 1 + j by omega] at this
        | true =>
            have hroom : dar.data.length ≠ max (2 * dar.capacity) 1 := by omega
            rw [touch_moves h hal, touch_iterate_room hroom]
            refine iff_of_false (fun hc => ?_) fun hall => ?_
            · have hcap : max (2 * dar.capacity) 1 = dar.capacity := congrArg capacity hc
              omega
            · have := hall 0 (by omega)
              rw [Nat.add_zero, hal] at this
              cases this
  · simp [touch_iterate_room h, h]

end DynArray

/-! ### The calls -/

section

variable {τ π : Type} [FdTree τ π]

/-- A slot of the heap of timed events is taken and given back. -/
def Svc.touchTimed (s : Svc τ) : Svc τ :=
  { s with
    timedEventsHeap := (DynArray.touch (s.timedEventsHeap, s.alloc)).1
    alloc := (DynArray.touch (s.timedEventsHeap, s.alloc)).2 }

/-- The call takes a slot before it is refused. -/
def ApiCall.touches : ApiCall → Bool
  | .schedTimeout .. => true
  | _ => false

/-- **Every call is refused** while the service stops. Only `iosvc_sched_timeout` touches
anything: a slot of its heap. -/
theorem apiCall_stopping {s : Svc τ} (hst : s.status = .stopping) (body : Svc τ → Option (Svc τ))
    (c : ApiCall) :
    ∃ code, apiCall body s c = some (code, if c.touches then s.touchTimed else s) ∧
      code ≠ .ok := by
  cases c with
  | post hnd => exact ⟨.stopped, by simp [apiCall, iosvcPost, hst, ApiCall.touches], by simp⟩
  | postDelay hnd status ms =>
      by_cases harg : hnd.callback.isNone ∨ ms.toInt < 0
      · exact ⟨.invarg, by simp only [apiCall, iosvcPostDelay, if_pos harg]; rfl, by simp⟩
      · refine ⟨.stopped, ?_, by simp⟩
        simp only [apiCall, iosvcPostDelay, if_neg harg, hst, true_or, if_true]
        rfl
  | sched event hnd status =>
      refine ⟨.stopped, ?_, by simp⟩
      simp [apiCall, iosvcSched, iosvcEnqueue, hst, ApiCall.touches]
  | schedTimeout event hnd status ms =>
      rcases hgrow : s.timedEventsHeap.emplaceBack s.alloc with ⟨_ | heap, al⟩
      · refine ⟨.nomem, ?_, by simp⟩
        simp [apiCall, iosvcSchedTimeout, hgrow, ApiCall.touches, touchTimed, DynArray.touch]
      · refine ⟨.stopped, ?_, by simp⟩
        simp [apiCall, iosvcSchedTimeout, hgrow, iosvcEnqueue, hst, ApiCall.touches, touchTimed,
          DynArray.touch]
  | cancel fd wt => exact ⟨.invarg, by simp [apiCall, iosvcCancel, hst, ApiCall.touches], by simp⟩
  | stop => exact ⟨.inprogress, by simp [apiCall, iosvcStop, hst, ApiCall.touches], by simp⟩
  | reset => exact ⟨.inprogress, by simp [apiCall, iosvcReset, hst, ApiCall.touches], by simp⟩
  | run => exact ⟨.inprogress, by simp [apiCall, runRefused, hst, ApiCall.touches], by simp⟩

/-! ### Whole handlers -/

/-- The number of calls of a handler that take a slot. No call of a stopping service calls
another handler, so that only the handler's own calls count. -/
def Script.touches : Script → ℕ
  | .ret => 0
  | .tick _ rest => rest.touches
  | .user _ _ rest => rest.touches
  | .call c _ rest => (if c.touches then 1 else 0) + rest.touches

/-- Nothing but time, the user's variables and storage has changed. -/
structure Idle (s s' : Svc τ) : Prop where
  same : s' = { s with
    alloc := s'.alloc
    timedEventsHeap := s'.timedEventsHeap
    clock := s'.clock
    ints := s'.ints
    errs := s'.errs }
  timed : s'.timed = s.timed
  clock : s.clock ≤ s'.clock

theorem Idle.refl (s : Svc τ) : Idle s s := ⟨rfl, rfl, le_rfl⟩

theorem Idle.trans {s₁ s₂ s₃ : Svc τ} (h₁ : Idle s₁ s₂) (h₂ : Idle s₂ s₃) : Idle s₁ s₃ := by
  refine ⟨?_, h₂.timed.trans h₁.timed, h₁.clock.trans h₂.clock⟩
  rw [h₂.same, h₁.same]

/-- Making room in the heap of the timed events is idle. -/
theorem idle_touchTimed (s : Svc τ) : Idle s s.touchTimed :=
  ⟨rfl, DynArray.data_touch _, le_rfl⟩

/-- **What a handler does while the service stops**: it returns, and its calls take and give
back slots of the heap of timed events, and do nothing else. -/
theorem exec_stopping (script : Script) {s : Svc τ} (hst : s.status = .stopping) :
    ∃ s', exec script s = some s' ∧ Idle s s' ∧
      (s'.timedEventsHeap, s'.alloc) =
        DynArray.touch^[script.touches] (s.timedEventsHeap, s.alloc) := by
  induction script generalizing s with
  | ret => exact ⟨s, rfl, .refl s, rfl⟩
  | tick dt rest ih =>
      obtain ⟨s', hrun, hidle, hheap⟩ := ih (s := { s with clock := s.clock + dt }) hst
      have htick : Idle s { s with clock := s.clock + dt } :=
        ⟨rfl, rfl, show s.clock ≤ s.clock + dt by omega⟩
      exact ⟨s', hrun, htick.trans hidle, hheap⟩
  | user ints errs rest ih =>
      obtain ⟨s', hrun, hidle, hheap⟩ := ih (s := { s with ints := ints, errs := errs }) hst
      have huser : Idle s { s with ints := ints, errs := errs } := ⟨rfl, rfl, le_rfl⟩
      exact ⟨s', hrun, huser.trans hidle, hheap⟩
  | call c inner rest _ ih =>
      obtain ⟨code, hcall, -⟩ := apiCall_stopping hst (exec inner) c
      rw [exec, hcall]
      simp only [bind, Option.bind_some, Script.touches]
      cases hc : c.touches with
      | false =>
          obtain ⟨s', hrun, hidle, hheap⟩ := ih hst
          simp only [Bool.false_eq_true, if_false, Nat.zero_add]
          exact ⟨s', hrun, hidle, hheap⟩
      | true =>
          obtain ⟨s', hrun, hidle, hheap⟩ := ih (s := s.touchTimed) hst
          simp only [if_true, Nat.add_comm 1, Function.iterate_succ_apply]
          exact ⟨s', hrun, (idle_touchTimed s).trans hidle, hheap⟩

/-- **When the heaps stay in their blocks.** In a stopping service every sequence of calls of a
handler returns and leaves the contents of both heaps as they were. The storage of both, block
and capacity, is as it was exactly if the heap of timed events is not full, or the sequence
has no call of `iosvc_sched_timeout` for which a larger block can be allocated. -/
theorem stopping_keeps_heaps_iff {s : Svc τ} (hst : s.status = .stopping) (script : Script) :
    ∃ s', exec script s = some s' ∧ s'.timedHandlersHeap.data = s.timedHandlersHeap.data ∧
      s'.timed = s.timed ∧
      (s'.timedHandlersHeap = s.timedHandlersHeap ∧ s'.timedEventsHeap = s.timedEventsHeap ↔
        s.timedEventsHeap.data.length ≠ s.timedEventsHeap.capacity ∨
          ∀ k < script.touches, s.alloc.ok (s.alloc.next + k) = false) := by
  obtain ⟨s', hrun, hidle, hheap⟩ := exec_stopping script hst
  have hdelay : s'.timedHandlersHeap = s.timedHandlersHeap := by rw [hidle.same]
  have hmoved : s'.timedEventsHeap =
      (DynArray.touch^[script.touches] (s.timedEventsHeap, s.alloc)).1 := congrArg Prod.fst hheap
  refine ⟨s', hrun, by rw [hdelay], hidle.timed, ?_⟩
  rw [and_iff_right hdelay, hmoved]
  exact DynArray.touch_iterate_iff _

end

/-- A service with timed events is being stopped. -/
def stoppingWith (cs : List SchedCall) : Option (Svc RbMem) :=
  (schedAll (newService 0 (fun _ => 0) fun _ => .ok) cs).map fun s => (iosvcStop s.started).2

/-- A handler that tries to schedule a timed event. -/
def retryScript : Script :=
  .call (.schedTimeout ⟨6, some .read⟩ ⟨some 1, 0⟩ none 0) .ret .ret

/-- With three timed events in a heap for four, both heaps stay where they are. -/
theorem stopping_keeps_heaps_iff_room :
    ∃ s s' : Svc RbMem, stoppingWith [timedReadCall 3, timedReadCall 4, timedReadCall 5] = some s ∧
      exec retryScript s = some s' ∧
      s'.timedHandlersHeap = s.timedHandlersHeap ∧ s'.timedEventsHeap = s.timedEventsHeap := by
  have hobs : (stoppingWith [timedReadCall 3, timedReadCall 4, timedReadCall 5]).map
      (fun s => (s.status, s.timedEventsHeap.data.length, s.timedEventsHeap.capacity)) =
      some (.stopping, 3, 4) := by decide
  obtain ⟨s, hs, hobs⟩ := Option.map_eq_some_iff.mp hobs
  simp only [Prod.mk.injEq] at hobs
  obtain ⟨hst, hlen, hcap⟩ := hobs
  obtain ⟨s', hrun, -, -, hiff⟩ := stopping_keeps_heaps_iff hst retryScript
  obtain ⟨h₁, h₂⟩ := hiff.mpr (.inl (by omega))
  exact ⟨s, s', hs, hrun, h₁, h₂⟩

/-- With one timed event in a heap for one, the heap moves to another block. -/
theorem stopping_moves_full_heap :
    ¬ ∀ (s : Svc RbMem) (script : Script), s.status = .stopping →
      ∃ s', exec script s = some s' ∧ s'.timedHandlersHeap = s.timedHandlersHeap ∧
        s'.timedEventsHeap = s.timedEventsHeap := by
  intro h
  have hobs : (stoppingWith [timedReadCall 5]).map (fun s => (s.status,
      (s.timedEventsHeap.data.length, s.timedEventsHeap.capacity, s.timedEventsHeap.block),
      (exec retryScript s).map fun s => (s.timedEventsHeap.capacity, s.timedEventsHeap.block))) =
      some (.stopping, (1, 1, 0), some (2, 3)) := by decide
  obtain ⟨s, -, hobs⟩ := Option.map_eq_some_iff.mp hobs
  simp only [Prod.mk.injEq] at hobs
  obtain ⟨hst, ⟨-, hcap, -⟩, hmoved⟩ := hobs
  obtain ⟨s', hrun, -, hheap⟩ := h s retryScript hst
  rw [hrun, Option.map_some, Option.some.injEq, Prod.mk.injEq, hheap, hcap] at hmoved
  exact absurd hmoved.1 (by decide)

end IoEngine
