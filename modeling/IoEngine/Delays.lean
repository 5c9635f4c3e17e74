import IoEngine.Enqueue
import IoEngine.EventLoop

/-!
# The Heap of Delayed Handlers

`iosvc_post_delay` adds an entry to this heap and `timeout_first` removes the first one,
after the handler of that entry has returned.

## Main results

* `postDelay_cases`: a call either **refuses and changes nothing** but the allocator, or it
  **adds one entry**, the deadline of which is the present time plus the delay.
* `postDelay_top`: an entry that is **due stays first** while others are added.
* `popDelay_spec`: the removal takes **the first entry** out of the heap, which stays
  ordered.
-/

open BinHeap

namespace IoEngine

open Svc

variable {τ : Type}

instance : IsStrictWeakOrder DelayHeapEntry fun x y => delayHpEntLt x y where
  irrefl := by simp [delayHpEntLt]
  trans := by
    simp only [delayHpEntLt, decide_eq_true_eq]
    exact fun _ _ _ => lt_trans
  incomp_trans := by
    simp only [delayHpEntLt, decide_eq_true_eq]
    omega

/-- An entry is lower than another when its deadline is. -/
theorem delayHpEntLt_iff {x y : DelayHeapEntry} :
    (delayHpEntLt x y = true) ↔ x.deadline < y.deadline := by
  simp [delayHpEntLt]

/-- The delayed handlers are in heap order. -/
def DelaysOrdered (l : List DelayHeapEntry) : Prop :=
  Ordered (fun x y => delayHpEntLt x y) l

/-- The first entry of an ordered heap has the **least deadline**. -/
theorem DelaysOrdered.le_deadline {l : List DelayHeapEntry} (h : DelaysOrdered l)
    {top e : DelayHeapEntry} (htop : l[0]? = some top) (he : e ∈ l) :
    top.deadline ≤ e.deadline := by
  have hle := Ordered.root_le h htop he
  rw [delayHpEntLt_iff] at hle
  omega

/-- Exchanging two delayed handlers writes nothing else. -/
theorem swapSpec_delay : SwapSpec id delayHpEntSwp fun _ => True :=
  fun _ _ _ _ _ _ => ⟨_, rfl, trivial, rfl⟩

/-! ### Adding an entry -/

/-- `s'` is `s` with one more delayed handler, which the call has noted. -/
structure Delayed (s s' : Svc τ) (ent : DelayHeapEntry) : Prop where
  same : s' = { s with
    timedHandlersHeap := s'.timedHandlersHeap
    alloc := s'.alloc
    log := .accepted (.delay ent) s.clock :: s.log }
  perm : s'.timedHandlersHeap.data.Perm (ent :: s.timedHandlersHeap.data)
  ordered : DelaysOrdered s.timedHandlersHeap.data → DelaysOrdered s'.timedHandlersHeap.data
  alloc : s.alloc.Grows s'.alloc

/-- **What `iosvc_post_delay` does**: it refuses, or adds an entry. -/
theorem postDelay_cases (s : Svc τ) (hnd : IoHandler) (status : Ptr) (ms : Int32) :
    ∃ code s', iosvcPostDelay s hnd status ms = some (code, s') ∧
      ((code ≠ .ok ∧ s' = { s with alloc := s'.alloc } ∧ s.alloc.Grows s'.alloc) ∨
        (code = .ok ∧ hnd.callback.isSome = true ∧ 0 ≤ ms.toInt ∧
          (s.status = .ready ∨ s.status = .running) ∧
          Delayed s s' ⟨s.clock + ms.toInt, hnd, status⟩)) := by
  unfold iosvcPostDelay
  split
  · exact ⟨_, _, rfl, .inl ⟨by simp, rfl, .refl _⟩⟩
  next hargs =>
  split
  · exact ⟨_, _, rfl, .inl ⟨by simp, rfl, .refl _⟩⟩
  next hstatus =>
  have hgrows := emplaceBack_grows s.timedHandlersHeap s.alloc
  rcases hp : s.timedHandlersHeap.emplaceBack s.alloc with ⟨_ | heap, al⟩
  · rw [hp] at hgrows
    exact ⟨_, _, rfl, .inl ⟨by simp, rfl, hgrows⟩⟩
  · rw [hp] at hgrows
    have hdata := emplaceBack_data hp
    -- the entry is written to the new last position
    have hidx : heap.data.length - 1 = s.timedHandlersHeap.data.length := by simp [hdata]
    have hset : ∀ ent, heap.data.set s.timedHandlersHeap.data.length ent =
        s.timedHandlersHeap.data ++ [ent] := by
      intro ent
      simp [hdata]
    obtain ⟨l, hl, -, hperm⟩ := heapSiftUpIdx_total delayHpEntLt swapSpec_delay
      (s.timedHandlersHeap.data ++ [⟨s.currentTime + ms.toInt, hnd, status⟩]) trivial
      (show s.timedHandlersHeap.data.length < _ by simp)
    simp only [hidx, hset, hl, bind, Option.bind_some]
    refine ⟨_, _, rfl, .inr ⟨rfl, ?_, ?_, ?_, rfl, ?_, fun ho => ?_, hgrows⟩⟩
    · cases hc : hnd.callback with
      | none => simp [hc] at hargs
      | some f => rfl
    · omega
    · cases hst : s.status <;> simp_all
    · exact hperm.trans (List.perm_append_singleton _ _)
    · obtain ⟨l', hl', -, ho', -⟩ :=
        heapSiftUpIdx_spec swapSpec_delay trivial (by simp)
          (show OrderedUp (fun x y => delayHpEntLt x y) _ _ from
            Ordered.append ho ⟨s.currentTime + ms.toInt, hnd, status⟩)
      obtain rfl := Option.some.inj (hl.symm.trans hl')
      exact ho'

/-- **An entry that is due stays first** while others are added. -/
theorem postDelay_top {s s' : Svc τ} {hnd : IoHandler} {status : Ptr} {ms : Int32}
    {code : IoErrcode} (h : iosvcPostDelay s hnd status ms = some (code, s')) {top : DelayHeapEntry}
    (htop : s.timedHandlersHeap.data[0]? = some top) (hdue : top.deadline ≤ s.clock) :
    s'.timedHandlersHeap.data[0]? = some top := by
  unfold iosvcPostDelay at h
  split at h
  next =>
    obtain ⟨-, rfl⟩ := Prod.mk.inj (Option.some.inj h)
    exact htop
  next hargs =>
  split at h
  next =>
    obtain ⟨-, rfl⟩ := Prod.mk.inj (Option.some.inj h)
    exact htop
  next =>
  rcases hp : s.timedHandlersHeap.emplaceBack s.alloc with ⟨_ | heap, al⟩
  · rw [hp] at h
    obtain ⟨-, rfl⟩ := Prod.mk.inj (Option.some.inj h)
    exact htop
  · rw [hp] at h
    obtain ⟨l, hl, h⟩ := Option.bind_eq_some_iff.mp h
    obtain ⟨-, rfl⟩ := Prod.mk.inj (Option.some.inj h)
    have hdata := emplaceBack_data hp
    have hidx : heap.data.length - 1 = s.timedHandlersHeap.data.length := by simp [hdata]
    have hpos := (List.getElem?_eq_some_iff.mp htop).1
    rw [hidx] at hl
    have hswap : SwapReturns id delayHpEntSwp fun _ => True := fun l l' i j _ h => by
      obtain rfl := Option.some.inj h
      exact ⟨trivial, rfl⟩
    have hx : (heap.data.set s.timedHandlersHeap.data.length
        ⟨s.currentTime + ms.toInt, hnd, status⟩)[s.timedHandlersHeap.data.length]? =
        some ⟨s.currentTime + ms.toInt, hnd, status⟩ := by simp [hdata]
    refine heapSiftUpLoop_root hswap trivial (by omega) hx ?_ ?_ hl
    · rw [id, List.getElem?_set_ne (by omega), hdata, List.getElem?_append_left hpos, htop]
    · rw [delayHpEntLt, decide_eq_false_iff_not]
      show ¬ s.clock + ms.toInt < top.deadline
      omega

/-! ### Removing the first entry -/

/-- The end of the delay branch of `timeout_first`, after the handler has returned. -/
def popDelay (s : Svc τ) : Option (Svc τ) := do
  let last ← s.timedHandlersHeap.data.getLast?
  let heap := (s.timedHandlersHeap.set 0 last).popBack
  if heap.data = [] then some { s with timedHandlersHeap := heap }
  else do
    let l ← heapSiftDownIdx id delayHpEntLt delayHpEntSwp heap.data 0
    some { s with timedHandlersHeap := { heap with data := l } }

/-- The delay branch of `timeout_first` in two parts. -/
theorem timeoutDelay_eq {π : Type} [FdTree τ π] (beh : Behaviour τ) (s : Svc τ) :
    timeoutDelay beh s = (s.timedHandlersHeap.data[0]?).bind fun top =>
      (callHandler beh (.delay top .ok) top.handler (s.signal top.status .ok)).bind popDelay :=
  rfl

/-- The removal of the first entry returns, whatever the order of the heap. -/
theorem popDelay_total {s : Svc τ} {top : DelayHeapEntry}
    (htop : s.timedHandlersHeap.data[0]? = some top) :
    ∃ s', popDelay s = some s' ∧ s' = { s with timedHandlersHeap := s'.timedHandlersHeap } := by
  obtain ⟨last, hlast, -, -⟩ := dropLast_swapAt_ends htop
  simp only [popDelay, hlast, bind, Option.bind_some]
  split
  · exact ⟨_, rfl, rfl⟩
  · obtain ⟨l, hl, -, -⟩ := heapSiftDownIdx_total delayHpEntLt swapSpec_delay
      (s.timedHandlersHeap.set 0 last).popBack.data 0 trivial
    rw [hl]
    exact ⟨_, rfl, rfl⟩

/-- **The first entry is removed**, and the heap stays ordered. -/
theorem popDelay_spec {s : Svc τ} {top : DelayHeapEntry}
    (ho : DelaysOrdered s.timedHandlersHeap.data)
    (htop : s.timedHandlersHeap.data[0]? = some top) :
    ∃ s', popDelay s = some s' ∧ s' = { s with timedHandlersHeap := s'.timedHandlersHeap } ∧
      s.timedHandlersHeap.data.Perm (top :: s'.timedHandlersHeap.data) ∧
      DelaysOrdered s'.timedHandlersHeap.data := by
  obtain ⟨last, hlast, hdrop, hperm⟩ := dropLast_swapAt_ends htop
  rw [hdrop] at hperm
  have hrest : ((s.timedHandlersHeap.set 0 last).popBack).data =
      s.timedHandlersHeap.data.dropLast.set 0 last := by
    simp only [DynArray.popBack, DynArray.set]
    cases hd : s.timedHandlersHeap.data with
    | nil => rfl
    | cons x l =>
        cases l with
        | nil => rfl
        | cons y l => rfl
  have hdown : OrderedDown (fun x y => delayHpEntLt x y)
      (s.timedHandlersHeap.data.dropLast.set 0 last) 0 :=
    (Ordered.down ho).replace_root last
  simp only [popDelay, hlast, bind, Option.bind_some, hrest]
  by_cases hnil : s.timedHandlersHeap.data.dropLast.set 0 last = []
  · rw [if_pos hnil]
    refine ⟨_, rfl, rfl, ?_, ?_⟩
    · rw [hrest]
      exact hperm.symm
    · rw [hrest, hnil]
      intro i x y _ hx
      simp at hx
  · obtain ⟨l, hl, -, ho', hp'⟩ := heapSiftDownIdx_spec swapSpec_delay trivial hdown
    rw [if_neg hnil, hl]
    exact ⟨_, rfl, rfl, hperm.symm.trans (hp'.symm.cons top), ho'⟩

end IoEngine
