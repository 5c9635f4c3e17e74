import Mathlib.Logic.Function.Basic
import IoEngine.Service

/-!
# The Event Storage of a Node Is a Map

Whatever blocks a node has and whoever used them before, what matters to the service is
which event is pending for each wait type: `EventNode.pending`. This module shows that the
storage operations act on it as on a map with three keys, provided that the inline type is
only `EMPTY` when neither a read nor a write is pending (`EventNode.Wf`).

## Main results

* `reserveSlot_spec`: reserving storage for an event that is not pending and writing it
  there **adds exactly that event**, also when the storage is taken over from another use.
* `vacate_spec`: vacating the storage of a pending event **removes exactly that event**.
* `clearEvents_requested` and `requested_update`: the two mask tables agree: the poll bits
  set by enqueueing and cleared by dequeueing are those of the pending events.
-/

namespace IoEngine

/-! ### Pending events -/

namespace EventNode

/-- The inline type is `EMPTY` only when neither a read nor a write is pending. -/
def Wf (n : EventNode) : Prop :=
  n.mainEvType = .empty → n.rdWrVacant = true

instance (n : EventNode) : Decidable n.Wf :=
  inferInstanceAs (Decidable (_ → _))

/-- A new node is well formed. -/
theorem wf_zero : zero.Wf := by decide

/-- Where the exception event is found. -/
theorem pending_exception (n : EventNode) :
    n.pending .exception = n.exEvent.filter EventData.live := by
  unfold pending getEvtData
  cases h : n.exEvent <;> simp [deref, h]

/-- Where the read event is found. -/
theorem pending_read (n : EventNode) :
    n.pending .read = match n.mainEvType with
      | .empty => none
      | .read => (some n.mainEvent).filter EventData.live
      | .write => n.auxEvent.filter EventData.live := by
  unfold pending getEvtData mainIs
  cases h : n.mainEvType <;> cases ha : n.auxEvent <;> simp [deref, ha]

/-- Where the write event is found. -/
theorem pending_write (n : EventNode) :
    n.pending .write = match n.mainEvType with
      | .empty => none
      | .read => n.auxEvent.filter EventData.live
      | .write => (some n.mainEvent).filter EventData.live := by
  unfold pending getEvtData mainIs
  cases h : n.mainEvType <;> cases ha : n.auxEvent <;> simp [deref, ha]

/-- A vacant slot holds no pending event. -/
theorem filter_live_of_vacant {o : Option EventData} (h : o.any EventData.live = false) :
    o.filter EventData.live = none := by
  cases o <;> simp_all [Option.filter]

/-- Nothing is pending in a new node. -/
theorem pending_zero (wt : WaitType) : zero.pending wt = none := by
  cases wt <;> rfl

/-- The two lookups agree: `is_scheduled` says whether an event is pending. -/
theorem isScheduled_eq (n : EventNode) (wt : WaitType) :
    n.isScheduled wt = (n.pending wt).isSome := by
  obtain ⟨ty, idx, main, aux, ex⟩ := n
  cases wt <;> cases ty <;> cases aux <;> cases ex <;>
    simp [isScheduled, pending, getEvtData, mainIs, deref, Option.filter] <;>
    split <;> simp_all

/-- An event is pending if its slot holds it with a handler. -/
theorem pending_eq_some {n : EventNode} {wt : WaitType} {d : EventData} :
    n.pending wt = some d ↔
      d.live = true ∧ ∃ slot, n.getEvtData wt = some slot ∧ n.deref slot = some d := by
  simp only [pending, Option.filter_eq_some_iff, Option.bind_eq_some_iff]
  exact and_comm

/-- Reading after writing through a pointer. -/
theorem deref_assign (n : EventNode) (d : EventData) (slot slot' : EvtSlot) :
    (n.assign d slot).deref slot' = if slot' = slot then some d else n.deref slot' := by
  cases slot <;> cases slot' <;> rfl

@[simp] theorem pollfdIdx_assign (n : EventNode) (d : EventData) (slot : EvtSlot) :
    (n.assign d slot).pollfdIdx = n.pollfdIdx := by
  cases slot <;> rfl

@[simp] theorem mainEvType_assign (n : EventNode) (d : EventData) (slot : EvtSlot) :
    (n.assign d slot).mainEvType = n.mainEvType := by
  cases slot <;> rfl

/-- Writing to storage that exists does not change where events are stored. -/
theorem getEvtData_assign {n : EventNode} {slot : EvtSlot} (h : (n.deref slot).isSome)
    (d : EventData) (wt : WaitType) : (n.assign d slot).getEvtData wt = n.getEvtData wt := by
  obtain ⟨ty, idx, main, aux, ex⟩ := n
  cases slot <;> cases wt <;> cases ty <;> cases aux <;> cases ex <;>
    simp_all [assign, deref, getEvtData, mainIs]

/-- Different wait types have different storage. -/
theorem getEvtData_inj {n : EventNode} {wt wt' : WaitType} {slot : EvtSlot}
    (h : n.getEvtData wt = some slot) (h' : n.getEvtData wt' = some slot) : wt = wt' := by
  obtain ⟨ty, idx, main, aux, ex⟩ := n
  cases wt <;> cases wt' <;> cases ty <;> cases aux <;> cases ex <;>
    simp_all [getEvtData, mainIs] <;> subst h <;> simp_all

/-- What is pending after writing to the storage of one wait type. -/
theorem pending_assign {n : EventNode} {wt : WaitType} {slot : EvtSlot}
    (hslot : n.getEvtData wt = some slot) (hd : (n.deref slot).isSome) (d : EventData) :
    (n.assign d slot).pending =
      Function.update n.pending wt (if d.live then some d else none) := by
  funext w
  simp only [pending, getEvtData_assign hd]
  by_cases hw : w = wt
  · subst hw
    simp [hslot, deref_assign, Option.filter]
  · rw [Function.update_of_ne hw]
    cases hs : n.getEvtData w with
    | none => simp [pending, hs]
    | some slot' =>
        have hne : slot' ≠ slot := fun he => hw (getEvtData_inj (he ▸ hs) hslot)
        simp [pending, hs, deref_assign, hne]

/-- **Writing a pending event** to its slot makes it, and no other one, pending. -/
theorem pending_assign_live {n : EventNode} {wt : WaitType} {slot : EvtSlot}
    (hslot : n.getEvtData wt = some slot) (hd : (n.deref slot).isSome) {d : EventData}
    (hlive : d.live = true) :
    (n.assign d slot).pending = Function.update n.pending wt (some d) := by
  rw [pending_assign hslot hd, if_pos hlive]

/-- Writing an event in use keeps the node well-formed. -/
theorem Wf.assign {n : EventNode} {wt : WaitType} {slot : EvtSlot} (h : n.Wf)
    (hslot : n.getEvtData wt = some slot) (d : EventData) : (n.assign d slot).Wf := by
  intro hty
  rw [mainEvType_assign] at hty
  have hvac := h hty
  cases wt <;> simp [getEvtData, hty] at hslot
  obtain ⟨_, -, rfl⟩ := hslot
  exact hvac

/-- The inline type may be forgotten when neither a read nor a write is pending. -/
theorem pending_forgetType {n : EventNode} (h : n.rdWrVacant = true) :
    { n with mainEvType := .empty }.pending = n.pending := by
  simp only [rdWrVacant, Bool.and_eq_true, Bool.not_eq_true'] at h
  have hmain : (some n.mainEvent).filter EventData.live = none :=
    filter_live_of_vacant (by simpa using h.1)
  have haux := filter_live_of_vacant h.2
  funext wt
  cases wt with
  | read => rw [pending_read, pending_read, hmain, haux]; cases n.mainEvType <;> rfl
  | write => rw [pending_write, pending_write, hmain, haux]; cases n.mainEvType <;> rfl
  | exception => rw [pending_exception, pending_exception]

/-- The node after the storage of an event has been vacated, as `iosvc_dequeue` does. -/
def vacate (n : EventNode) (d : EventData) (slot : EvtSlot) : EventNode :=
  let n := n.assign { d with handler := { d.handler with callback := none } } slot
  if n.rdWrVacant then { n with mainEvType := .empty } else n

/-- What is pending once the storage of an event has been vacated. -/
theorem pending_vacate {n : EventNode} {wt : WaitType} {slot : EvtSlot} (d : EventData)
    (hslot : n.getEvtData wt = some slot) (hd : (n.deref slot).isSome) :
    (n.vacate d slot).pending = Function.update n.pending wt none := by
  have hp := pending_assign hslot hd { d with handler := { d.handler with callback := none } }
  simp only [EventData.live, Option.isSome_none, Bool.false_eq_true, if_false] at hp
  simp only [vacate]
  split
  next hv => rw [pending_forgetType hv, hp]
  next => exact hp

/-- **Vacating** the storage of a pending event removes exactly that event. -/
theorem vacate_spec {n : EventNode} {wt : WaitType} {slot : EvtSlot} (d : EventData)
    (h : n.Wf) (hslot : n.getEvtData wt = some slot) (hd : (n.deref slot).isSome) :
    (n.vacate d slot).Wf ∧ (n.vacate d slot).pollfdIdx = n.pollfdIdx ∧
      (n.vacate d slot).pending = Function.update n.pending wt none := by
  have hwf := h.assign hslot { d with handler := { d.handler with callback := none } }
  have hp := pending_vacate d hslot hd
  simp only [vacate] at hp ⊢
  split
  next hv =>
    rw [if_pos hv] at hp
    exact ⟨fun _ => hv, by simp, hp⟩
  next hv =>
    rw [if_neg hv] at hp
    exact ⟨hwf, by simp, hp⟩

end EventNode

/-! ### Reserving storage -/

/-- The node `n'` is `n` with storage reserved for a wait type at `slot`. -/
structure Reserved (n n' : EventNode) (wt : WaitType) (slot : EvtSlot) : Prop where
  wf : n'.Wf
  pollfdIdx : n'.pollfdIdx = n.pollfdIdx
  isSome : (n'.deref slot).isSome
  getEvtData : n'.getEvtData wt = some slot
  others : ∀ w, w ≠ wt → n'.pending w = n.pending w

/-- The exception storage is an own block, a vacated one of the other kind, or a new one. -/
theorem reserveEx_spec {al al' : Alloc} {n n' : EventNode} {slot : EvtSlot} (hwf : n.Wf)
    (h : reserveEx al n = (al', n', some slot)) : Reserved n n' .exception slot := by
  obtain ⟨ty, idx, main, aux, ex⟩ := n
  unfold reserveEx at h
  split at h
  next d hex =>
    obtain ⟨-, rfl, rfl⟩ := by simpa using h
    subst hex
    exact ⟨hwf, rfl, rfl, rfl, fun _ _ => rfl⟩
  next hex =>
    simp only at hex
    subst hex
    split at h
    next hsteal =>
      obtain ⟨-, rfl, rfl⟩ := by simpa using h
      obtain ⟨b, rfl⟩ : ∃ b, aux = some b :=
        Option.isSome_iff_exists.mp ((Bool.and_eq_true _ _).mp hsteal).1
      have hvac : b.live = false := by simpa using hsteal
      refine ⟨fun hty => ?_, rfl, rfl, rfl, fun w hw => ?_⟩
      · have := hwf hty
        simp_all [EventNode.rdWrVacant]
      · have hnone : (some b).filter EventData.live = none :=
          EventNode.filter_live_of_vacant (by simpa using hvac)
        cases w with
        | read => rw [EventNode.pending_read, EventNode.pending_read, hnone]; cases ty <;> rfl
        | write => rw [EventNode.pending_write, EventNode.pending_write, hnone]; cases ty <;> rfl
        | exception => exact absurd rfl hw
    next =>
      split at h
      next => simp at h
      next =>
        obtain ⟨-, rfl, rfl⟩ := by simpa using h
        refine ⟨hwf, rfl, rfl, rfl, fun w hw => ?_⟩
        cases w with
        | read => rw [EventNode.pending_read, EventNode.pending_read]
        | write => rw [EventNode.pending_write, EventNode.pending_write]
        | exception => exact absurd rfl hw

/-- The read or write storage is the inline one when that is free or of this type, and else
a block of its own, a vacated one of the other kind, or a new one. -/
theorem reserveRdWr_spec {al al' : Alloc} {n n' : EventNode} {wt : WaitType} {slot : EvtSlot}
    (hwf : n.Wf) (hwt : wt ≠ .exception) (h : reserveRdWr al n wt = (al', n', some slot)) :
    Reserved n n' wt slot := by
  obtain ⟨ty, idx, main, aux, ex⟩ := n
  unfold reserveRdWr at h
  split at h
  next hty =>
    simp only at hty
    subst hty
    obtain ⟨-, rfl, rfl⟩ := by simpa using h
    have hvac := hwf rfl
    simp only [EventNode.rdWrVacant, Bool.and_eq_true, Bool.not_eq_true'] at hvac
    refine ⟨fun hty => ?_, rfl, rfl, ?_, fun w hw => ?_⟩
    · cases wt <;> simp at hty
    · cases wt <;> simp_all [EventNode.getEvtData, EventNode.mainIs]
    · cases wt <;> cases w <;> cases aux <;>
        simp_all [EventNode.pending_read, EventNode.pending_write,
          EventNode.pending_exception, Option.filter]
  next hty =>
    split at h
    next hmain =>
      obtain ⟨-, rfl, rfl⟩ := by simpa using h
      refine ⟨hwf, rfl, rfl, ?_, fun _ _ => rfl⟩
      simp [EventNode.getEvtData, hwt, hty, hmain]
    next hmain =>
      split at h
      next d haux =>
        obtain ⟨-, rfl, rfl⟩ := by simpa using h
        simp only at haux
        subst haux
        refine ⟨hwf, rfl, rfl, ?_, fun _ _ => rfl⟩
        simp [EventNode.getEvtData, hwt, hty, hmain]
      next haux =>
        simp only at haux
        subst haux
        split at h
        next hsteal =>
          obtain ⟨-, rfl, rfl⟩ := by simpa using h
          obtain ⟨b, rfl⟩ : ∃ b, ex = some b :=
            Option.isSome_iff_exists.mp ((Bool.and_eq_true _ _).mp hsteal).1
          have hvac : b.live = false := by simpa using hsteal
          refine ⟨fun he => absurd he hty, rfl, rfl, ?_, fun w hw => ?_⟩
          · cases wt <;> cases ty <;> simp_all [EventNode.getEvtData, EventNode.mainIs]
          · cases wt <;> cases w <;> cases ty <;>
              simp_all [EventNode.pending_read, EventNode.pending_write,
          EventNode.pending_exception, EventNode.mainIs, Option.filter]
        next =>
          split at h
          next => simp at h
          next =>
            obtain ⟨-, rfl, rfl⟩ := by simpa using h
            refine ⟨fun he => absurd he hty, rfl, rfl, ?_, fun w hw => ?_⟩
            · cases wt <;> cases ty <;> simp_all [EventNode.getEvtData, EventNode.mainIs]
            · cases wt <;> cases w <;> cases ty <;> cases ex <;>
                simp_all [EventNode.pending_read, EventNode.pending_write,
                EventNode.pending_exception, EventNode.mainIs]

/-- **Reserving** storage for an event leaves all other events as they are, wherever the
storage comes from. -/
theorem reserveSlot_spec {al al' : Alloc} {n n' : EventNode} {wt : WaitType} {slot : EvtSlot}
    (hwf : n.Wf) (h : reserveSlot al n wt = (al', n', some slot)) : Reserved n n' wt slot := by
  unfold reserveSlot at h
  split at h
  next hwt => exact hwt ▸ reserveEx_spec hwf h
  next hwt => exact reserveRdWr_spec hwf hwt h

/-- Without storage the node is as before. -/
theorem reserveSlot_none {al al' : Alloc} {n n' : EventNode} {wt : WaitType}
    (h : reserveSlot al n wt = (al', n', none)) : n' = n := by
  unfold reserveSlot reserveEx reserveRdWr at h
  repeat' split at h
  all_goals simp_all

/-- Writing the event to the reserved storage **adds exactly that event**. -/
theorem Reserved.pending_assign {n n' : EventNode} {wt : WaitType} {slot : EvtSlot}
    (h : Reserved n n' wt slot) {d : EventData} (hd : d.live = true) :
    (n'.assign d slot).pending = Function.update n.pending wt (some d) := by
  rw [EventNode.pending_assign_live h.getEvtData h.isSome hd]
  funext w
  by_cases hw : w = wt
  · subst hw
    simp
  · rw [Function.update_of_ne hw, Function.update_of_ne hw, h.others w hw]

/-! ### Poll masks -/

/-- The poll bits requested for a set of pending events. -/
def requested (p : WaitType → Bool) : PollMask :=
  (if p .read then enqueueMask .read else 0) ||| (if p .write then enqueueMask .write else 0) |||
    (if p .exception then enqueueMask .exception else 0)

/-- Enqueueing adds the bits of the new event. -/
theorem requested_update (p : WaitType → Bool) (wt : WaitType) :
    requested (Function.update p wt true) = requested p ||| enqueueMask wt := by
  unfold requested
  cases wt <;> simp only [Function.update] <;>
    generalize p .read = r <;> generalize p .write = w <;> generalize p .exception = x <;>
    revert r w x <;> decide

/-- **The two mask tables agree**: dequeueing clears exactly the bits that no other pending
event requests. -/
theorem clearEvents_requested (p : WaitType → Bool) (wt : WaitType) (h : p wt = true) :
    clearEvents (requested p) wt = requested (Function.update p wt false) := by
  unfold requested
  cases wt <;> simp only [Function.update] <;>
    generalize p .read = r at * <;> generalize p .write = w at * <;>
    generalize p .exception = x at * <;> revert h <;> revert r w x <;> decide

/-- No bits are requested exactly when nothing is pending. -/
theorem requested_eq_zero {p : WaitType → Bool} : requested p = 0 ↔ ∀ wt, p wt = false := by
  have hall : (∀ wt, p wt = false) ↔ p .read = false ∧ p .write = false ∧ p .exception = false :=
    ⟨fun h => ⟨h _, h _, h _⟩, fun h wt => by cases wt <;> simp [h]⟩
  rw [hall]
  unfold requested
  generalize p .read = r
  generalize p .write = w
  generalize p .exception = x
  revert r w x
  decide

end IoEngine
