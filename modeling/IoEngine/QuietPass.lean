import IoEngine.Readiness

/-!
# Passes with Quiet Handlers

The handlers of this module make no calls. What a pass does is then decided by the events
that are pending when it begins and by what `poll` has reported, and `poll` may report more
than was asked for: `POLLERR`, `POLLHUP` and `POLLNVAL` need not be requested.

## Main results

* `dispatchLoop_unique`: the state that a pass ends in **does not depend on the fuel**.
* `dispatch_dequeues_pending_iff`: a pass dequeues pending events only **if and only if**
  every fd that is reported as hung up, and valid, has a pending read.
-/

open BinHeap

namespace IoEngine

open FdTree Svc LawfulFdTree

/-! ### The result of a pass -/

section

variable {τ π : Type} [FdTree τ π] {beh : Behaviour τ} {now : ℤ}

/-- More fuel does not change what a pass does. -/
theorem dispatchLoop_mono {fuel fuel' : ℕ} {s s' : Svc τ} {i : ℕ} (hle : fuel ≤ fuel')
    (h : dispatchLoop beh now fuel s i = some s') : dispatchLoop beh now fuel' s i = some s' := by
  induction fuel generalizing fuel' s i with
  | zero => cases h
  | succ fuel ih =>
      obtain ⟨fuel', rfl⟩ : ∃ k, fuel' = k + 1 := ⟨fuel' - 1, by omega⟩
      rw [dispatchLoop] at h ⊢
      split at h
      next hi =>
        obtain ⟨⟨next, s₁⟩, h₁, h⟩ := Option.bind_eq_some_iff.mp h
        rw [if_pos hi, h₁]
        exact ih (Nat.le_of_succ_le_succ hle) h
      next hi =>
        rw [if_neg hi]
        exact h

/-- **A pass has one result.** -/
theorem dispatchLoop_unique {fuel₁ fuel₂ : ℕ} {s s₁ s₂ : Svc τ} {i : ℕ}
    (h₁ : dispatchLoop beh now fuel₁ s i = some s₁)
    (h₂ : dispatchLoop beh now fuel₂ s i = some s₂) :
    s₁ = s₂ := by
  have e₁ := dispatchLoop_mono (le_max_left fuel₁ fuel₂) h₁
  have e₂ := dispatchLoop_mono (le_max_right fuel₁ fuel₂) h₂
  exact Option.some.inj (e₁.symm.trans e₂)

/-- A quiet handler with a callback returns, and touches nothing but time and the user's
variables. -/
theorem callHandler_quiet (hbeh : Quieting beh) (cause : Cause) {hnd : IoHandler}
    (hc : hnd.callback.isSome = true) (s : Svc τ) :
    ∃ (dt : ℕ) (ints : Addr → Int32) (errs : Addr → IoErrcode), callHandler beh cause hnd s =
      some { s.note (.invoked cause hnd s.clock s.ints s.errs) with
        clock := s.clock + dt, ints := ints, errs := errs } := by
  obtain ⟨c, hc⟩ := Option.isSome_iff_exists.mp hc
  obtain ⟨dt, ints, errs, hrun⟩ := exec_quiet
    (hbeh hnd (s.note (.invoked cause hnd s.clock s.ints s.errs)))
    (s.note (.invoked cause hnd s.clock s.ints s.errs))
  refine ⟨dt, ints, errs, ?_⟩
  simp only [callHandler, invoke, hc, hrun]
  rfl

end

/-! ### Vacated storage -/

section

variable {τ π : Type} [FdTree τ π] [LawfulFdTree τ π] {beh : Behaviour τ} {now : ℤ} {s : Svc τ}

/-- **Completing an event that is not pending** dereferences a null pointer, or calls a null
callback. -/
theorem Inv.serve_vacant {V : List ℤ} (h : Inv V s) {fd : ℤ} {wt : WaitType} {place : π}
    {code : IoErrcode} (hl : load s.asyncHandlers place = some (lookup s.asyncHandlers fd))
    (hno : s.view fd wt = none) : IoEngine.serve beh s place fd wt now code = none := by
  cases ha : lookup s.asyncHandlers fd with
  | none => simp [IoEngine.serve, hl, ha]
  | some a =>
      obtain ⟨n, hn⟩ := h.node_of_lookup ha
      have hpend : n.pending wt = none := by
        have : (s.view fd wt).isSome = _ := view_isSome ha hn
        rw [hno] at this
        simpa using this.symm
      rw [Option.eq_none_iff_forall_not_mem]
      intro s' hs'
      simp only [IoEngine.serve, hl, ha, bind, Option.bind_some, Option.mem_def] at hs'
      obtain ⟨nodeFd, -, hs'⟩ := Option.bind_eq_some_iff.mp hs'
      obtain ⟨⟨hnd, s₁⟩, hdeq, hs'⟩ := Option.bind_eq_some_iff.mp hs'
      -- the handler is the one in the storage, which has no callback
      obtain ⟨n', hn', hdeq⟩ := Option.bind_eq_some_iff.mp hdeq
      obtain rfl : n = n' := Option.some.inj (hn.symm.trans hn')
      obtain ⟨slot, hslot, hdeq⟩ := Option.bind_eq_some_iff.mp hdeq
      obtain ⟨evt, hevt, hdeq⟩ := Option.bind_eq_some_iff.mp hdeq
      obtain ⟨s₂, -, hdeq⟩ := Option.bind_eq_some_iff.mp hdeq
      obtain ⟨s₃, -, hdeq⟩ := Option.bind_eq_some_iff.mp hdeq
      obtain ⟨s₄, -, hdeq⟩ := Option.bind_eq_some_iff.mp hdeq
      obtain ⟨e, -, hdeq⟩ := Option.bind_eq_some_iff.mp hdeq
      obtain ⟨rfl, -⟩ := Prod.mk.inj (Option.some.inj hdeq)
      have hdead : evt.handler.callback = none := by
        by_contra hc
        have hlive : evt.live = true := Option.isSome_iff_ne_none.mpr hc
        rw [EventNode.pending_eq_some.mpr ⟨hlive, slot, hslot, hevt⟩] at hpend
        cases hpend
      simp only [callHandler, invoke, hdead] at hs'
      cases hs'

/-- Completing a pending event with a quiet handler takes this event away, and no other. -/
theorem Inv.serve_quiet {V : List ℤ} (h : Inv V s) (hbeh : Quieting beh)
    {fd : ℤ} {wt : WaitType} {place : π} {r : Pending} (now : ℤ) (code : IoErrcode)
    (hok : (lookup s.asyncHandlers fd).all (IoEngine.dequeueOk s · wt) = true)
    (hl : load s.asyncHandlers place = some (lookup s.asyncHandlers fd))
    (hr : s.view fd wt = some r) (hcode : code ≠ .timeout) :
    ∃ s', IoEngine.serve beh s place fd wt now code = some s' ∧ Inv (fd :: V) s' ∧
      s'.asyncHandlers = s.asyncHandlers ∧
      ∀ fd' w, s'.view fd' w = if fd' = fd ∧ w = wt then none else s.view fd' w := by
  obtain ⟨a, ha, hr⟩ := Option.bind_eq_some_iff.mp hr
  obtain ⟨d, hd, rfl⟩ := Option.map_eq_some_iff.mp hr
  rw [ha, Option.all_some] at hok
  obtain ⟨s₁, s₂, -, hdeq, rfl, hinv₂, -, hrun⟩ :=
    h.serve_starts now ha (by rw [hl, ha]) hd hok hcode
  obtain ⟨dt, ints, errs, hexec⟩ := exec_quiet
    (hbeh d.handler (s₁.note (.invoked (.event fd wt code now) d.handler s₁.clock s₁.ints s₁.errs)))
    (s₁.note (.invoked (.event fd wt code now) d.handler s₁.clock s₁.ints s₁.errs))
  refine ⟨_, (hrun beh).trans hexec, hinv₂.frame rfl rfl rfl rfl le_rfl, ?_, hdeq.view⟩
  have htree : s₁.asyncHandlers = s.asyncHandlers := by rw [hdeq.same]; rfl
  exact htree

/-- An entry whose read is reported and not pending is not returned from. -/
theorem Inv.dispatchEntry_vacant (h : Inv [] s) (hbeh : Quieting beh) {i : ℕ} {e : PollFd}
    (hclear : entryFinding beh now s i ≠ .fault) (he : s.pollfds.data[i]? = some e)
    (hread : .read ∈ e.reported) (hno : s.view e.fd .read = none) :
    IoEngine.dispatchEntry beh s i now = none := by
  obtain ⟨hvalid, hbits⟩ := mem_reported.mp hread
  obtain ⟨place, hp, hl⟩ := h.probe e.fd
  have hok : hasPriority e.revents = true → (s.view e.fd .exception).isSome = true →
      serveOk beh s e.fd .exception now .ok = true := by
    intro hx hpend
    by_contra hno
    rw [Bool.not_eq_true] at hno
    refine hclear ?_
    simp [entryFinding, he, hp, PollFd.steps, PollFd.code, hvalid, readySteps, stepsFinding, hx,
      stillPending, slotHolds, hl, hpend, hno]
  have hhas : hasRead e.revents = true := by
    have hmask : pollin ||| pollhup ||| pollrdband ||| pollrdnorm = dequeueMask .read := by decide
    simpa [hasRead, hmask] using hbits
  have hdue : ∀ s₁ : Svc τ, readDue s₁ i e.revents = some true := by
    intro s₁
    simp [readDue, hhas]
  simp only [IoEngine.dispatchEntry, he, hp, bind, Option.bind_some, hvalid, ne_eq,
    not_true_eq_false,
    if_false, dispatchReadyEntry, hdue, Option.bind_eq_none_iff]
  intro s₁ hs₁
  -- the exception that may have been completed before does not make a read pending
  obtain ⟨hinv₁, htree₁, hno₁⟩ : Inv [e.fd] s₁ ∧ s₁.asyncHandlers = s.asyncHandlers ∧
      s₁.view e.fd .read = none := by
    unfold serveIf at hs₁
    split at hs₁
    next hprio =>
      cases hx : s.view e.fd .exception with
      | none =>
          rw [h.serve_vacant hl hx] at hs₁
          cases hs₁
      | some r =>
          obtain ⟨s₂, hrun, hinv, htree, hview⟩ := h.serve_quiet hbeh now .ok
            (dequeueOk_of_serveOk (hok hprio (by rw [hx]; rfl))) hl hx (by simp)
          obtain rfl := Option.some.inj (hrun.symm.trans hs₁)
          exact ⟨hinv, htree, by simpa [hview] using hno⟩
    next =>
      obtain rfl := Option.some.inj hs₁
      exact ⟨h.mono (by simp), rfl, hno⟩
  intro s₂ hs₂
  rw [serveIf, if_pos rfl, hinv₁.serve_vacant (by rw [htree₁, hl]) hno₁] at hs₂
  cases hs₂

/-- **A pass with such an entry ahead does not return.** -/
theorem PassInv.vacant {s₀ : Svc τ} (h₀ : Inv [] s₀) (hbeh : Quieting beh) {e : PollFd}
    (he : e ∈ s₀.pollfds.data) (hread : .read ∈ e.reported) (hno : s₀.view e.fd .read = none)
    (hgood : ∀ e' ∈ s₀.pollfds.data, ∀ wt ∈ e'.reported, wt ≠ .read →
      (s₀.view e'.fd wt).isSome = true)
    {D : List ℤ} {i : ℕ} (h : PassInv s₀ D s i) (hfd : e.fd ∉ D)
    (hclear : ∀ fuel, passFinding beh now fuel s i ≠ .fault) (fuel : ℕ) :
    dispatchLoop beh now fuel s i = none := by
  induction fuel generalizing s D i with
  | zero => rfl
  | succ fuel ih =>
      have hi : i < s.pollfds.data.length := by
        by_contra hi
        have := h.todo e he hfd
        rw [List.drop_eq_nil_of_le (by omega)] at this
        cases this
      obtain ⟨e₁, he₁⟩ := exists_getElem? hi
      rw [dispatchLoop, if_pos hi]
      by_cases hbad : e₁.fd ∉ D ∧ .read ∈ e₁.reported ∧ s₀.view e₁.fd .read = none
      · obtain ⟨hfd₁, hread₁, hno₁⟩ := hbad
        rw [h.inv.dispatchEntry_vacant hbeh (entryFinding_of_pass hi hclear) he₁ hread₁
          (by rw [h.view _ _ hfd₁, hno₁])]
        rfl
      · obtain ⟨hfind, next, s₂, hrun, ⟨D', hP, hD'⟩, -⟩ := h.step h₀ hbeh.keepsToFd now
          (entryFinding_of_pass hi hclear)
          (fun e₂ he₂ hfd₂ wt hwt => by
            obtain rfl : e₁ = e₂ := Option.some.inj (he₁.symm.trans he₂)
            cases wt with
            | read =>
                rw [Option.isSome_iff_ne_none]
                exact fun hc => hbad ⟨hfd₂, hwt, hc⟩
            | write => exact hgood e₁ (h.mem_start he₁ hfd₂) _ hwt (by simp)
            | exception => exact hgood e₁ (h.mem_start he₁ hfd₂) _ hwt (by simp)) hi
        rw [hrun]
        refine ih hP (fun hc => ?_) (passFinding_tail hi hclear hfind hrun)
        rcases hD' e.fd hc with hc | ⟨e₂, he₂, hfd₂⟩
        · exact hfd hc
        · obtain rfl : e₁ = e₂ := Option.some.inj (he₁.symm.trans he₂)
          obtain rfl := h₀.entry_unique (h.mem_start he₁ (hfd₂ ▸ hfd)) he hfd₂.symm
          exact hbad ⟨hfd, hread, hno⟩

end

/-! ### Hang-ups -/

/-- The bits that `poll` reports without being asked. -/
def unsolicited : PollMask := pollerr ||| pollhup ||| pollnval

/-- A bit that is not reported may be taken out of those that can be. -/
theorem reported_without {r req m m' : PollMask} (h : r &&& ~~~ (req ||| m) = 0)
    (hm : r &&& (m &&& ~~~ m') = 0) : r &&& ~~~ (req ||| m') = 0 := by
  ext i hi
  have h₁ := congrArg (fun x : PollMask => x[i]) h
  have h₂ := congrArg (fun x : PollMask => x[i]) hm
  simp only [BitVec.getElem_and, BitVec.getElem_or, BitVec.getElem_not, BitVec.ofNat_eq_ofNat,
    BitVec.getElem_zero] at h₁ h₂ ⊢
  cases hr : r[i] <;> cases hq : req[i] <;> cases hm₁ : m[i] <;> cases hm₂ : m'[i] <;> simp_all

/-- A hang-up is reported as a read. -/
theorem read_reported_of_hup {e : PollFd} (hup : e.revents &&& pollhup ≠ 0)
    (hvalid : e.revents &&& pollnval = 0) : .read ∈ e.reported := by
  refine mem_reported.mpr ⟨hvalid, fun hc => hup ?_⟩
  have hsub : pollhup = dequeueMask .read &&& pollhup := by decide
  rw [hsub, ← BitVec.and_assoc, hc]
  rfl

/-- **Which events a pass dequeues.** In a consistent service let `poll` report any of the
requested bits and of those that it reports without being asked, let the handlers make no
calls, and let the pass reach no defect in the heap of timed events or in the tree. Then it
returns, having dequeued pending events only and through the live nodes of their fds, if and
only if every fd that is reported as hung up is also reported as invalid, or has a pending
read. -/
theorem dispatch_dequeues_pending_iff {s : Svc RbMem} (h : Inv [] s)
    (hpoll : ∀ e ∈ s.pollfds.data, e.revents &&& ~~~ (e.events ||| unsolicited) = 0)
    {beh : Behaviour RbMem} (hbeh : Quieting beh) (now : ℤ)
    (hclear : ∀ fuel, passFinding beh now fuel s 0 ≠ .fault) :
    (∃ fuel s' l, dispatchReadyEvents beh fuel s now = some s' ∧ s'.log = l ++ s.log ∧
      ∀ o ∈ l, o.sound = true) ↔
    ∀ e ∈ s.pollfds.data, e.revents &&& pollhup ≠ 0 →
      e.revents &&& pollnval ≠ 0 ∨ (s.view e.fd .read).isSome = true := by
  constructor
  · rintro ⟨fuel, s', -, hrun, -, -⟩ e he hup
    by_contra hbad
    obtain ⟨hvalid, hno⟩ : e.revents &&& pollnval = 0 ∧ s.view e.fd .read = none := by
      simpa [not_or] using hbad
    have hnone := PassInv.vacant h hbeh he (read_reported_of_hup hup hvalid) hno
      (fun e' he' wt hwt hne => h.pending_of_reported he' (hpoll e' he')
        (by cases wt <;> first | exact absurd rfl hne | decide) hwt)
      (passInv_start h) (by simp) hclear fuel
    rw [dispatchReadyEvents, hnone] at hrun
    cases hrun
  · intro hcond
    have hgood : ∀ e ∈ s.pollfds.data, ∀ wt ∈ e.reported, (s.view e.fd wt).isSome = true := by
      intro e he wt hwt
      by_cases hup : e.revents &&& pollhup = 0
      · -- without a hang-up only requested bits are left
        have hrest : e.revents &&& ~~~ (e.events ||| (pollerr ||| pollnval)) = 0 := by
          refine reported_without (hpoll e he) ?_
          rw [show unsolicited &&& ~~~ (pollerr ||| pollnval) = pollhup by decide, hup]
        exact h.pending_of_reported he hrest (by cases wt <;> decide) hwt
      · have hread := (hcond e he hup).resolve_left (by simpa using (mem_reported.mp hwt).1)
        cases wt with
        | read => exact hread
        | write => exact h.pending_of_reported he (hpoll e he) (by decide) hwt
        | exception => exact h.pending_of_reported he (hpoll e he) (by decide) hwt
    obtain ⟨fuel, s', hrun, hs⟩ := h.servePass hbeh.keepsToFd now hclear hgood
    obtain ⟨l, hlog, hsound, -⟩ := hs.log
    exact ⟨fuel, s', l, hrun, hlog, hsound⟩

/-- A write of an fd. -/
def writeCall (fd : ℤ) : SchedCall :=
  { readCall fd with event := ⟨fd, some .write⟩ }

/-- A read of an fd whose timeout has run out a millisecond ago. -/
def overdueReadCall (fd : ℤ) : SchedCall :=
  { readCall fd with milliseconds := some 0, ints := fun _ => -1 }

/-- A read and a write of fd 5 are pending, and it is hung up: the read is completed. Fd 9 is not
reported, and its read has the deadline `-1`, which does no harm. -/
theorem dispatch_dequeues_pending_iff_hup :
    ∃ s : Svc RbMem, Inv [] s ∧ s.pollfds.data.map PollFd.revents = [pollhup, 0] ∧
      s.timed.map AsyncHeapEntry.deadline = [-1] ∧ (s.view 5 .read).isSome = true ∧
      ∃ fuel s' l, dispatchReadyEvents (fun _ _ => .ret) fuel s 0 = some s' ∧
        s'.log = l ++ s.log ∧ ∀ o ∈ l, o.sound = true := by
  obtain ⟨s, fds, hs, hsched⟩ :=
    schedAll_new [readCall 5, writeCall 5, overdueReadCall 9] (by decide)
  have hobs : (schedAll (newService 0 (fun _ => 0) fun _ => .ok)
      [readCall 5, writeCall 5, overdueReadCall 9]).map
      (fun s =>
        let s := s.reporting [pollhup, 0]
        (s.pollfds.data.all (fun e => e.revents &&& ~~~ (e.events ||| unsolicited) = 0 ∧
            (s.view e.fd .read).isSome = true),
          s.pollfds.data.map PollFd.revents, s.timed.map AsyncHeapEntry.deadline,
          (s.view 5 .read).isSome, (dispatchLoop (fun _ _ => .ret) 0 3 s 0).isSome,
          passFinding (fun _ _ => .ret) 0 3 s 0)) =
      some (true, [pollhup, 0], [-1], true, true, .good) := by decide
  rw [hs, Option.map_some, Option.some.injEq] at hobs
  simp only [Prod.mk.injEq, List.all_eq_true, decide_eq_true_eq] at hobs
  obtain ⟨hbits, hrev, hdead, hread, hends, hgood⟩ := hobs
  have hfind := passFinding_of_ends hends hgood
  have hinv : Inv [] (s.reporting [pollhup, 0]) := hsched.inv.reporting [pollhup, 0]
  refine ⟨s.reporting [pollhup, 0], hinv, hrev, hdead, hread, ?_⟩
  exact (dispatch_dequeues_pending_iff hinv (fun e he => (hbits e he).1) (fun _ _ => rfl) 0
    (fun fuel => by rw [hfind]; decide)).mpr fun e he _ => .inr (hbits e he).2

/-- A write of fd 5 is pending, and it is hung up: the dispatcher takes this for a read, and
follows the storage of a read that is not there. -/
theorem dispatch_hup_without_read :
    ¬ ∀ (s : Svc RbMem) (beh : Behaviour RbMem) (now : ℤ), Inv [] s → s.status = .running →
      DeadlinesOk s →
      (∀ e ∈ s.pollfds.data, e.revents &&& ~~~ (e.events ||| unsolicited) = 0) → Quieting beh →
      ∃ fuel s' l, dispatchReadyEvents beh fuel s now = some s' ∧ s'.log = l ++ s.log ∧
        ∀ o ∈ l, o.sound = true := by
  intro h
  obtain ⟨s, fds, hs, hsched⟩ := schedAll_new [writeCall 5] (by decide)
  have hobs : (schedAll (newService 0 (fun _ => 0) fun _ => .ok) [writeCall 5]).map (fun s =>
      let s := s.reporting [pollhup]
      (s.pollfds.data.all (fun e => e.revents &&& ~~~ (e.events ||| unsolicited) = 0),
        s.timed.all (fun e => 0 ≤ e.deadline), dispatchFails (fun _ _ => .ret) 0 1 s 0)) =
      some (true, true, true) := by decide
  rw [hs, Option.map_some, Option.some.injEq] at hobs
  simp only [Prod.mk.injEq, List.all_eq_true, decide_eq_true_eq] at hobs
  obtain ⟨hbits, hdead, hfails⟩ := hobs
  obtain ⟨fuel, s', l, hrun, -⟩ := h (s.reporting [pollhup]) (fun _ _ => .ret) 0
    (hsched.inv.reporting [pollhup]) rfl (deadlinesOk_of_timed hdead) hbits fun _ _ => rfl
  rw [dispatchReadyEvents, dispatchLoop_of_fails hfails] at hrun
  cases hrun

end IoEngine
