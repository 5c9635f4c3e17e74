import IoEngine.Semaphore

/-!
# Permits and Refused Handlers

Both calls on a semaphore change it first and post a handler afterwards, and do not look back
when the service refuses the handler. This module says exactly what is lost then, by the ledger
of a run of calls and of the deletion of the semaphore after it.

## Main results

* `SemCall.unchanged_iff`: a failed call leaves the semaphore as it was **if and only if** the
  service does not refuse a handler that the call posts.
* `semaphore_conserves_iff`: over **every run** of calls nothing is lost if and only if no call
  of it has a handler refused.
* `iosemDelete_conserves_iff`: `iosem_delete` hands the handlers that still wait to the service,
  the last one first, and **closes the account** if and only if none of them is refused.
-/

namespace IoEngine

variable {τ : Type}

/-! ### Failed calls -/

/-- A call that fails leaves the semaphore as it was. -/
def SemCall.Unchanged (sem : IoSemaphore) (s : Svc τ) (c : SemCall) : Prop :=
  ∀ code sem' s', c.run sem s = some (code, sem', s') → code ≠ .ok → sem' = sem

/-- **A failed call** leaves the semaphore as it was if and only if the service does not refuse
a handler that it posts. -/
theorem SemCall.unchanged_iff (sem : IoSemaphore) (s : Svc τ) (c : SemCall) :
    c.Unchanged sem s ↔ c.covered sem s = true := by
  constructor
  · intro h
    rw [SemCall.covered, Option.all_eq_true]
    intro hnd hg
    by_contra hno
    have hcode : (iosvcPost s hnd).1 ≠ .ok := fun hc => hno ((post_spec s hnd).1.mp hc)
    cases c with
    | wait hnd' =>
        by_cases hpos : 0 < sem.semVal
        · obtain rfl : hnd' = hnd := by simpa [SemCall.grants, hpos] using hg
          have hsem := h _ _ _ (by rw [SemCall.run, iosemWait, if_pos hpos]) hcode
          have hval := congrArg IoSemaphore.semVal hsem
          simp only at hval
          omega
        · simp [SemCall.grants, hpos] at hg
    | signal =>
        by_cases hneg : sem.semVal < 0
        · simp [SemCall.grants, hneg] at hg
        · rw [SemCall.grants, if_neg hneg] at hg
          obtain ⟨rest, hl⟩ := List.head?_eq_some_iff.mp hg
          have hkeep : ¬(sem.semVal < 0 ∨ sem.handlerList = []) := by simp [hneg, hl]
          have hrun : SemCall.signal.run sem s = some ((iosvcPost s hnd).1,
              { sem with handlerList := rest }, (iosvcPost s hnd).2) := by
            rw [SemCall.run, iosemSignal, if_neg hkeep, hl]
            rfl
          have hlen := congrArg (List.length ∘ IoSemaphore.handlerList) (h _ _ _ hrun hcode)
          simp [hl] at hlen
  · intro h code sem' s' hrun hcode
    have hposted : ∀ hnd, c.grants sem = some hnd → iosvcPost s hnd ≠ (code, s') := by
      intro hnd hg hpost
      have hok : postOk s hnd = true := (Option.all_eq_true _ _).mp h hnd hg
      have := (post_spec s hnd).1.mpr hok
      rw [hpost] at this
      exact hcode this
    obtain ⟨hnd, -, hg, -, hpost⟩ | ⟨-, -, -, -, hsem, -⟩ | ⟨-, -, -, hok, -⟩ | ⟨-, -, hok, -⟩ |
      ⟨hnd, -, -, hg, -, -, hpost⟩ := SemCall.run_cases hrun
    · exact absurd hpost (hposted hnd hg)
    · exact hsem
    · exact absurd hok hcode
    · exact absurd hok hcode
    · exact absurd hpost (hposted hnd hg)

/-- **Permits and handlers are conserved** if and only if none is refused. For every semaphore,
service and call, a failed call leaves the semaphore as it was if and only if the call is
covered; and over every run of a new semaphore, in all of its states the account is balanced and
the next call leaves the semaphore as it was if it fails, if and only if all of its calls are
covered. -/
theorem semaphore_conserves_iff (v : Int32) (cs : List (SemCall × Svc τ)) :
    (∀ (sem : IoSemaphore) (s : Svc τ) (c : SemCall),
      c.Unchanged sem s ↔ c.covered sem s = true) ∧
    ((∀ cs₁ cs₂ l, cs = cs₁ ++ cs₂ → ledgerRun (ledgerNew v) cs₁ = some l →
        Balanced v.toInt l ∧ ∀ c s cs₃, cs₂ = (c, s) :: cs₃ → c.Unchanged l.sem s) ↔
      ∀ cs₁ c s cs₂ l, cs = cs₁ ++ (c, s) :: cs₂ → ledgerRun (ledgerNew v) cs₁ = some l →
        c.covered l.sem s = true) := by
  refine ⟨SemCall.unchanged_iff, fun h cs₁ c s cs₂ l heq hrun => ?_, fun h cs₁ cs₂ l heq hrun => ?_⟩
  · obtain ⟨-, hun⟩ := h cs₁ ((c, s) :: cs₂) l heq hrun
    exact (SemCall.unchanged_iff ..).mp (hun c s cs₂ rfl)
  · refine ⟨(balanced_new v).run (fun cs₃ c s cs₄ l₁ heq₁ => ?_) hrun, fun c s cs₃ heq₂ => ?_⟩
    · exact h cs₃ c s (cs₄ ++ cs₂) l₁ (by rw [heq, heq₁, List.append_assoc, List.cons_append])
    · exact (SemCall.unchanged_iff ..).mpr (h cs₁ c s cs₃ l (heq₂ ▸ heq) hrun)

/-- A service that has been stopped. -/
def stoppedService : Svc FdMap :=
  { iosvcCreate ⟨fun _ => true, 0⟩ 0 (fun _ => 0) (fun _ => .ok) with status := .done }

/-- **A lost permit and a lost handler.** With a value of 1 a wait is refused by a service that
has been stopped, and the value is 0 nevertheless. With a waiting handler a signal is refused,
and nothing waits any more. -/
theorem semaphore_loses :
    ¬ (SemCall.wait ⟨some 1, 0⟩).Unchanged (iosemCreate 1) stoppedService ∧
    ¬ SemCall.signal.Unchanged ⟨[⟨some 1, 0⟩], 0⟩ stoppedService ∧
    (∃ l, ledgerRun (ledgerNew 1) [(.wait ⟨some 1, 0⟩, stoppedService)] = some l ∧
      l.sem.semVal = 0 ∧ l.accepted = [] ∧ l.signals = 0 ∧ ¬ Balanced (1 : Int32).toInt l) ∧
    ∃ l, ledgerRun (ledgerNew 0)
        [(.wait ⟨some 1, 0⟩, stoppedService), (.signal, stoppedService)] = some l ∧
      l.waits = [⟨some 1, 0⟩] ∧ l.accepted = [] ∧ l.sem.handlerList = [] ∧
      ¬ Balanced (0 : Int32).toInt l := by
  refine ⟨fun h => ?_, fun h => ?_, ⟨_, rfl, rfl, rfl, rfl, fun h => ?_⟩, _, rfl, rfl, rfl, rfl,
    fun h => ?_⟩
  · have hval := congrArg IoSemaphore.semVal (h .stopped _ _ rfl (by decide))
    revert hval
    decide
  · have hlist := congrArg IoSemaphore.handlerList (h .stopped _ _ rfl (by decide))
    revert hlist
    decide
  · have := h.permits
    revert this
    decide
  · have := h.handlers.length_eq
    revert this
    decide

/-! ### Deleting a semaphore -/

/-- The loop of `iosem_delete`, and what it does with the service. -/
def postAll (s : Svc τ) : List IoHandler → Svc τ
  | [] => s
  | hnd :: rest => postAll (iosvcPost s hnd).2 rest

/-- `iosem_delete` -/
def iosemDelete (sem : IoSemaphore) (s : Svc τ) : Svc τ :=
  postAll s sem.handlerList

/-- The handlers that the service takes, one after the other. -/
def takenOf (s : Svc τ) : List IoHandler → List IoHandler
  | [] => []
  | hnd :: rest => (if postOk s hnd then [hnd] else []) ++ takenOf (iosvcPost s hnd).2 rest

/-- **The condition**: none of them is refused. -/
def allTaken (s : Svc τ) : List IoHandler → Bool
  | [] => true
  | hnd :: rest => postOk s hnd && allTaken (iosvcPost s hnd).2 rest

/-- **The queue after some posts** has the handlers that were taken at its end. -/
theorem postAll_queue (s : Svc τ) (hnds : List IoHandler) :
    (postAll s hnds).syncHandlers.elems = s.syncHandlers.elems ++ takenOf s hnds := by
  induction hnds generalizing s with
  | nil => exact (List.append_nil _).symm
  | cons hnd rest ih => rw [postAll, ih, (post_spec s hnd).2, takenOf, List.append_assoc]

/-- The handlers taken are among the posted ones, in order. -/
theorem takenOf_sublist (s : Svc τ) (hnds : List IoHandler) : (takenOf s hnds).Sublist hnds := by
  induction hnds generalizing s with
  | nil => exact .slnil
  | cons hnd rest ih =>
      rw [takenOf]
      split
      next => exact (ih _).cons_cons hnd
      next => exact (ih _).cons hnd

/-- All of the handlers are taken if and only if each post succeeds. -/
theorem takenOf_eq_iff (s : Svc τ) (hnds : List IoHandler) :
    takenOf s hnds = hnds ↔ allTaken s hnds = true := by
  induction hnds generalizing s with
  | nil => simp [takenOf, allTaken]
  | cons hnd rest ih =>
      cases hok : postOk s hnd with
      | true => simp [takenOf, allTaken, hok, ih]
      | false =>
          simp only [takenOf, allTaken, hok, Bool.false_eq_true, if_false, List.nil_append,
            Bool.false_and, iff_false]
          intro heq
          have hlen := (takenOf_sublist (iosvcPost s hnd).2 rest).length_le
          rw [heq, List.length_cons] at hlen
          omega

/-- The handlers that wait are in the list with **the last one that waited first**. -/
theorem SemLedger.waiting_sublist {l l' : SemLedger} {cs : List (SemCall × Svc τ)}
    (h : l.sem.handlerList.Sublist l.waits) (hrun : ledgerRun l cs = some l') :
    l'.sem.handlerList.Sublist l'.waits := by
  induction cs generalizing l with
  | nil =>
      obtain rfl := Option.some.inj hrun
      exact h
  | cons c cs ih =>
      obtain ⟨c, s⟩ := c
      obtain ⟨l₁, hstep, hrest⟩ := Option.bind_eq_some_iff.mp hrun
      refine ih ?_ hrest
      obtain ⟨⟨code, sem, s'⟩, hcall, hl⟩ := Option.bind_eq_some_iff.mp hstep
      obtain rfl := Option.some.inj hl
      obtain ⟨hnd, rfl, -, rfl, -⟩ | ⟨hnd, rfl, -, rfl, rfl, -⟩ | ⟨hnd, rfl, -, rfl, rfl, -⟩ |
        ⟨rfl, -, rfl, rfl, -⟩ | ⟨hnd, rest, rfl, -, hlist, rfl, -⟩ := SemCall.run_cases hcall
      · dsimp only
        split
        next => exact h.cons hnd
        next => exact h
      · exact h
      · exact h.cons_cons hnd
      · exact h
      · rw [hlist] at h
        exact (List.sublist_cons_self hnd rest).trans h

/-- **A semaphore's whole life**: after every run of which no call has a handler refused,
`iosem_delete` hands the handlers that wait to the service, the last one that waited first. The
service has then accepted every handler whose wait returned `EIO_OK`, each once, if and only if it
refuses none of these either. -/
theorem iosemDelete_conserves_iff {v : Int32} {cs : List (SemCall × Svc τ)} {l : SemLedger}
    (hc : ∀ cs₁ c s cs₂ l₁, cs = cs₁ ++ (c, s) :: cs₂ → ledgerRun (ledgerNew v) cs₁ = some l₁ →
      c.covered l₁.sem s = true)
    (hrun : ledgerRun (ledgerNew v) cs = some l) (s : Svc τ) :
    ∃ taken, (iosemDelete l.sem s).syncHandlers.elems = s.syncHandlers.elems ++ taken ∧
      taken.Sublist l.sem.handlerList ∧ l.sem.handlerList.Sublist l.waits ∧
      ((l.accepted ++ taken).Perm l.waits ↔ allTaken s l.sem.handlerList = true) := by
  have hperm := ((balanced_new v).run hc hrun).handlers
  have hsub := takenOf_sublist s l.sem.handlerList
  refine ⟨takenOf s l.sem.handlerList, postAll_queue s _, hsub,
    SemLedger.waiting_sublist .slnil hrun, ?_⟩
  rw [← takenOf_eq_iff]
  constructor
  · intro hall
    have hlen := (hall.trans hperm.symm).length_eq
    rw [List.length_append, List.length_append] at hlen
    exact hsub.eq_of_length (Nat.add_left_cancel hlen)
  · intro htaken
    rwa [htaken]

/-- Two handlers wait, and the last one is in the queue first. -/
theorem iosemDelete_conserves_iff_two :
    ∃ l : SemLedger, ∃ taken : List IoHandler, l.waits = [⟨some 2, 0⟩, ⟨some 1, 0⟩] ∧
      taken.Sublist l.sem.handlerList ∧ (l.accepted ++ taken).Perm l.waits := by
  let s : Svc FdMap := iosvcCreate ⟨fun _ => true, 0⟩ 0 (fun _ => 0) fun _ => .ok
  let cs : List (SemCall × Svc FdMap) := [(.wait ⟨some 1, 0⟩, s), (.wait ⟨some 2, 0⟩, s)]
  have hc : ∀ cs₁ c s' cs₂ l₁, cs = cs₁ ++ (c, s') :: cs₂ →
      ledgerRun (ledgerNew 0) cs₁ = some l₁ → c.covered l₁.sem s' = true := by
    intro cs₁ c s' cs₂ l₁ heq hrun
    rcases cs₁ with - | ⟨c₁, - | ⟨c₂, cs₁⟩⟩
    · obtain ⟨rfl, rfl⟩ := Prod.mk.inj (List.cons.inj heq).1
      obtain rfl := Option.some.inj hrun
      rfl
    · obtain ⟨rfl, htail⟩ := List.cons.inj heq
      obtain ⟨rfl, rfl⟩ := Prod.mk.inj (List.cons.inj htail).1
      obtain rfl := Option.some.inj hrun
      rfl
    · simp [cs] at heq
  obtain ⟨taken, -, hsub, -, hiff⟩ := iosemDelete_conserves_iff hc rfl s
  exact ⟨_, taken, rfl, hsub, hiff.mpr rfl⟩

end IoEngine
