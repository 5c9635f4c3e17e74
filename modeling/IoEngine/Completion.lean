import IoEngine.EventLoop
import IoEngine.RbSearch
import IoEngine.Scheduling

/-!
# Completing an Event

An event is completed in three parts: it is dequeued, its handler runs, and the node of its
fd is removed when no event is left. `iosvc_cancel` keeps a pointer to the slot of the node
over the handler, and the event branch of `timeout_first` a pointer to the node itself.
This module says exactly when these pointers are still good for the last part.

## Main results

* `Inv.finishCancel_iff`, `Inv.finishTimeout_iff`: the last part leaves the service
  consistent **if and only if** the node it works on is good (`nodeOk`).
* `scriptSound_iff`: a handler, and those it calls in turn, see consistent states only **if and
  only if** none of the calls reaches a defect (`scriptOk`).
* `completion_consistent_iff`: the same for whole completions, whatever the handler does.
* `refToThis_eq_probe`: the slot that a timeout finds **through the parent pointer** is the one
  that the other completions find **by the fd**, in every search tree.
-/

open BinHeap RedBlack RedBlack.ColTree RedBlack.Ctx

namespace IoEngine

open FdTree Svc LawfulFdTree

variable {τ π : Type} [FdTree τ π]

/-! ### Timeouts -/

/-- The state in which the handler of the first timed event starts, when that event is timed
out: its node, its fd, its handler and the state. -/
def timeoutStarts (s : Svc τ) (now : ℤ) : Option (Addr × ℤ × IoHandler × Svc τ) := do
  let top ← s.timed[0]?
  let fd ← fdOf s.asyncHandlers top.ioOpData
  let (hnd, s) ← iosvcDequeue s top.ioOpData top.eventType now .timeout
  let s := s.setInt top.remaining 0
  some (top.ioOpData, fd, hnd,
    s.note (.invoked (.event fd top.eventType .timeout now) hnd s.clock s.ints s.errs))

section

variable [LawfulFdTree τ π] {V : List ℤ} {s : Svc τ}

/-- **The first half of a timeout**: up to where the handler starts. -/
theorem Inv.timeout_starts (h : Inv V s) (now : ℤ) {top : AsyncHeapEntry}
    (htop : s.timed[0]? = some top) :
    ∃ fd d s₀ s₁, lookup s.asyncHandlers fd = some top.ioOpData ∧
      pendingAt s.nodes top.ioOpData top.eventType = some d ∧
      Dequeued s s₀ fd top.eventType ⟨d.handler, d.status, some (top.deadline, top.remaining)⟩ now
        .timeout ∧
      timeoutStarts s now = some (top.ioOpData, fd, d.handler, s₁) ∧
      s₁ = (s₀.setInt top.remaining 0).note (.invoked (.event fd top.eventType .timeout now)
        d.handler s₀.clock (s₀.setInt top.remaining 0).ints s₀.errs) ∧
      Inv (fd :: V) s₁ ∧ Extends s s₁ ∧ ∀ beh : Behaviour τ, timeoutEvent beh s now =
        (IoEngine.exec (beh d.handler s₁) s₁).bind fun s₂ => finishTimeout s₂ top.ioOpData := by
  obtain ⟨d, hd, hidx⟩ := h.linked 0 top htop
  obtain ⟨n, hn, hpend⟩ := Option.bind_eq_some_iff.mp hd
  obtain ⟨hlive, -⟩ := EventNode.pending_eq_some.mp hpend
  obtain ⟨fd, hfd⟩ := (h.dom top.ioOpData).mp (by simp [hn])
  have hent : entryOf s.timed top.ioOpData top.eventType = some top :=
    h.linked.entryOf_eq.mpr ⟨List.mem_of_getElem? htop, rfl, rfl⟩
  obtain ⟨s₀, hrun, hinv, hdeq⟩ := h.dequeue now .timeout hfd hd fun _ => .inl (by simp [hidx])
  have hview : s.view fd top.eventType =
      some ⟨d.handler, d.status, some (top.deadline, top.remaining)⟩ := by
    rw [view_of_lookup hfd, hd, hent]
    rfl
  rw [hent] at hdeq
  have hs := hdeq.same
  have hstart : timeoutStarts s now = some (top.ioOpData, fd, d.handler,
      (s₀.setInt top.remaining 0).note (.invoked (.event fd top.eventType .timeout now)
        d.handler s₀.clock (s₀.setInt top.remaining 0).ints s₀.errs)) := by
    simp only [timeoutStarts, htop, (fdOf_iff h.tree).mpr hfd, hrun, bind, Option.bind_some]
    rfl
  refine ⟨fd, d, s₀, _, hfd, hd, hdeq, hstart, rfl, hinv.frame rfl rfl rfl rfl le_rfl, ?_, ?_⟩
  · refine ⟨by rw [hs]; exact le_rfl, ⟨[_], by rw [hs]; rfl, by simp [Obs.sound]⟩,
      .inl (by rw [hs]; rfl), .of_polls hdeq.polls, fun hl => ?_⟩
    refine hl.invoked hview (fun fd' wt' r' (hr' : s₀.view fd' wt' = some r') => ?_)
      (show (s₀.setInt top.remaining 0).log = s.log by rw [hs]; rfl) (by rw [hs]; exact le_rfl)
      fun D p ht => ?_
    · rw [hdeq.view] at hr'
      split at hr'
      · cases hr'
      · exact hr'
    · obtain ⟨-, rfl⟩ := Prod.mk.inj (Option.some.inj ht)
      exact Function.update_self ..
  · intro beh
    obtain ⟨c, hc⟩ := Option.isSome_iff_exists.mp hlive
    simp only [timeoutEvent, htop, (fdOf_iff h.tree).mpr hfd, hrun, bind, Option.bind_some,
      callHandler, invoke, hc]
    rfl

/-- The run of the end of a timeout at a live node: the slot of the node is found through
its parent pointer. -/
theorem Inv.finishTimeout_eq (h : Inv V s) {a : Addr} {n : EventNode} (hn : s.nodes a = some n) :
    ∃ place : π, WfPlace τ place ∧ load s.asyncHandlers place = some (some a) ∧
      finishTimeout s a = if n.mask = 0 then ioevtCleanupEvt s place else some s := by
  obtain ⟨fd, e, ha, he, -, heev, -⟩ := h.entry_of_node hn
  obtain ⟨place, hp, hl⟩ := h.probe fd
  refine ⟨place, probe_wf hp, by rw [hl, ha], ?_⟩
  simp only [IoEngine.finishTimeout, refToThis h.tree ha, hp, hn, he, heev, bind, Option.bind_some]

/-- **The end of a timeout.** -/
theorem Inv.finishTimeout {fd : ℤ} {a : Addr} (h : Inv (fd :: V) s) (hok : nodeOk s a fd = true) :
    ∃ s', finishTimeout s a = some s' ∧ Inv V s' ∧ Finished s s' fd := by
  cases hn : s.nodes a with
  | none => simp [nodeOk, hn] at hok
  | some n =>
      obtain ⟨place, hwf, hl, hrun⟩ := h.finishTimeout_eq hn
      rw [hrun]
      exact h.finishNode hwf hl hn hok

end

/-! ### The last part, exactly -/

/-- Cleaning up extracts the node and frees it. -/
theorem cleanup_tree {s s' : Svc τ} {place : π} (h : ioevtCleanupEvt s place = some s') :
    ∃ a t, rbExtract s.asyncHandlers place = some (a, t) ∧ s'.asyncHandlers = free t a := by
  simp only [ioevtCleanupEvt, bind, Option.bind_eq_some_iff] at h
  obtain ⟨⟨a, t⟩, hx, n, -, last, -, e, -, h⟩ := h
  refine ⟨a, t, hx, ?_⟩
  split at h
  · simp only [Option.bind_eq_some_iff, modifyNode, Option.map_eq_some_iff] at h
    obtain ⟨moved, -, place', -, p, -, b, -, k, -, rfl⟩ := h
    rfl
  · rw [← Option.some.inj h]

section

variable [LawfulFdTree τ π] {V : List ℤ} {s : Svc τ}

/-- **A completion of `fd` has left a consistent state**, but for the fds `V` of the completions
around it: the fd has a node and a `pollfd` exactly when an event is pending on it, and those
of the other fds are the ones that the handler left. -/
structure Completed (V : List ℤ) (s s' : Svc τ) (fd : ℤ) : Prop where
  inv : Inv V s'
  node : (lookup s'.asyncHandlers fd).isSome ↔ ∃ wt, (s'.view fd wt).isSome
  pollfd : (∃ e ∈ s'.pollfds.data, e.fd = fd) ↔ ∃ wt, (s'.view fd wt).isSome
  nodes : ∀ fd', fd' ≠ fd → lookup s'.asyncHandlers fd' = lookup s.asyncHandlers fd'
  pollfds : ∀ fd', fd' ≠ fd →
    ((∃ e ∈ s'.pollfds.data, e.fd = fd') ↔ ∃ e ∈ s.pollfds.data, e.fd = fd')

/-- A finished completion that is consistent. -/
theorem Finished.completed {s' : Svc τ} {fd : ℤ} (hf : Finished s s' fd) (h : Inv (fd :: V) s)
    (h' : Inv (V.filter (· ≠ fd)) s') : Completed V s s' fd := by
  have hfd : fd ∉ V.filter (· ≠ fd) := by simp
  refine ⟨h'.mono fun _ hm => (List.mem_filter.mp hm).1, h'.present_iff hfd, ?_, hf.lookup,
    fun fd' hne => ?_⟩
  · rw [h'.mem_pollfds_iff, h'.present_iff hfd]
  · rw [h'.mem_pollfds_iff, h.mem_pollfds_iff, hf.lookup fd' hne]

/-- **The last part, exactly.** -/
theorem Inv.finishNode_iff {fd : ℤ} {place : π} {b : Addr} {n : EventNode} (h : Inv (fd :: V) s)
    (hwf : WfPlace τ place) (hl : load s.asyncHandlers place = some (some b))
    (hn : s.nodes b = some n) :
    (∃ s', (if n.mask = 0 then ioevtCleanupEvt s place else some s) = some s' ∧
      Completed V s s' fd) ↔ nodeOk s b fd = true := by
  constructor
  · rintro ⟨s', hrun, hc⟩
    simp only [nodeOk, hn]
    by_cases hz : n.mask = 0
    · rw [if_pos hz] at hrun ⊢
      obtain ⟨fdb, hb⟩ := (h.dom b).mp (by simp [hn])
      have hp := slot_unique h.tree hwf hl hb
      obtain ⟨a, t, hext, htree⟩ := cleanup_tree hrun
      -- otherwise the tree would be left invalid
      have hx : extractOk s.asyncHandlers fdb = true := by
        by_contra hx
        exact extract_bad h.tree hp hb (by simpa using hx) hext (htree ▸ hc.inv.tree)
      -- or the node of another fd would be gone
      obtain rfl : fdb = fd := by
        by_contra hne
        obtain ⟨t', hext', -, hlook⟩ := extract_spec h.tree hp hb hx
        obtain ⟨rfl, rfl⟩ := Prod.mk.inj (Option.some.inj (hext.symm.trans hext'))
        have := hc.nodes fdb hne
        rw [htree, hlook, Function.update_self, hb] at this
        cases this
      simp [hb, hx]
    · rw [if_neg hz] at hrun ⊢
      obtain rfl := Option.some.inj hrun
      -- a vacant node of the fd would be left behind
      rw [Bool.not_eq_true', vacant]
      cases ha : lookup s.asyncHandlers fd with
      | none => rfl
      | some a =>
          obtain ⟨k, hk⟩ := h.node_of_lookup ha
          obtain ⟨wt, hwt⟩ := hc.node.mp (by simp [ha])
          rw [view_isSome ha hk] at hwt
          simp only [Option.bind_some, hk, decide_eq_false_iff_not, EventNode.mask_eq_zero]
          exact fun hno => by simp [hno wt] at hwt
  · intro hok
    have h₀ : Inv (fd :: V.filter (· ≠ fd)) s := h.mono fun fd' hm => by
      by_cases hc : fd' = fd
      · simp [hc]
      · simpa [hc] using hm
    obtain ⟨s', hrun, hinv, hf⟩ := h₀.finishNode hwf hl hn hok
    exact ⟨s', hrun, hf.completed h hinv⟩

/-- The end of a cancelling call leaves the service consistent **if and only if** the slot
is good. -/
theorem Inv.finishCancel_iff {fd : ℤ} {place : π} (h : Inv (fd :: V) s) (hwf : WfPlace τ place) :
    (∃ s', IoEngine.finishCancel s place = some s' ∧ Completed V s s' fd) ↔
      finishOk s place fd = true := by
  unfold finishOk
  split
  next b hl =>
    cases hn : s.nodes b with
    | none => simp [IoEngine.finishCancel, hl, hn, nodeOk]
    | some n =>
        rw [h.finishCancel_eq hl hn]
        exact h.finishNode_iff hwf hl hn
  next hno =>
    refine iff_of_false ?_ (by simp)
    rintro ⟨s', hrun, -⟩
    simp only [IoEngine.finishCancel, bind, Option.bind_eq_some_iff] at hrun
    obtain ⟨p, hp, b, hb, -⟩ := hrun
    exact hno b (hb ▸ hp)

/-- The end of a timeout leaves the service consistent **if and only if** the node is
good. -/
theorem Inv.finishTimeout_iff {fd : ℤ} (a : Addr) (h : Inv (fd :: V) s) :
    (∃ s', IoEngine.finishTimeout s a = some s' ∧ Completed V s s' fd) ↔ nodeOk s a fd = true := by
  cases hn : s.nodes a with
  | none => simp [IoEngine.finishTimeout, hn, nodeOk]
  | some n =>
      obtain ⟨place, hwf, hl, hrun⟩ := h.finishTimeout_eq hn
      rw [hrun]
      exact h.finishNode_iff hwf hl hn

end

/-! ### Sound completions

What a completion is to keep: the handlers, and what is done when they have returned, see
consistent states only. The conditions of `Inv.cancel` and `Inv.exec` are exact for this. -/

section

variable (V : List ℤ)

/-- **A cancellation is sound** inside the completions of `V`: its handler, with the body `body`,
starts in a consistent state and is `sound` there, and the call returns and has completed the
event. -/
def CancelSound (sound : Svc τ → Prop) (body : Svc τ → Option (Svc τ)) (s : Svc τ) (fd : ℤ)
    (wt : WaitType) [LawfulFdTree τ π] : Prop :=
  ∃ place s₁ s₂ s₃, cancelStarts s fd wt = some (place, s₁) ∧ Inv (fd :: V) s₁ ∧ sound s₁ ∧
    body s₁ = some s₂ ∧ iosvcCancel body s fd wt = some (.ok, s₃) ∧ Completed V s₂ s₃ fd

end

variable [LawfulFdTree τ π]

/-- **A handler's calls are sound**: each returns and leaves a consistent state, and each
cancellation of a pending event is sound. -/
def Script.Sound : Script → List ℤ → Svc τ → Prop
  | .ret, _, _ => True
  | .tick dt rest, V, s => rest.Sound V { s with clock := s.clock + dt }
  | .user ints errs rest, V, s => rest.Sound V { s with ints := ints, errs := errs }
  | .call c inner rest, V, s =>
      (∀ fd wt, c = .cancel fd wt → s.status = .running → (s.view fd wt).isSome = true →
        CancelSound V (inner.Sound (fd :: V)) (exec inner) s fd wt) ∧
      ∃ code s', apiCall (exec inner) s c = some (code, s') ∧ Inv V s' ∧ rest.Sound V s'

/-- **A timeout is sound**: the handler of the first timed event starts in a consistent state,
its calls are sound, and the timeout returns and has completed the event. -/
def TimeoutSound (beh : Behaviour τ) (s : Svc τ) (now : ℤ) : Prop :=
  ∃ a fd hnd s₁ s₂ s₃, timeoutStarts s now = some (a, fd, hnd, s₁) ∧ Inv [fd] s₁ ∧
    (beh hnd s₁).Sound [fd] s₁ ∧ exec (beh hnd s₁) s₁ = some s₂ ∧
    timeoutFirst beh s true now = some s₃ ∧ Completed [] s₂ s₃ fd

omit [LawfulFdTree τ π] in
/-- Timing out the first timed event reaches no defect: neither the calls of its handler, nor
the removal of its node when the handler has returned. -/
def timeoutOk (beh : Behaviour τ) (s : Svc τ) (now : ℤ) : Bool :=
  (timeoutStarts s now).all fun (a, fd, hnd, s₁) =>
    scriptOk (beh hnd s₁) s₁ && (exec (beh hnd s₁) s₁).all fun s₂ => nodeOk s₂ a fd

section

variable {V : List ℤ} {s : Svc τ}

/-- The handler of a cancelled event starts in a consistent state **only if** its dequeue
reaches no defect. -/
theorem Inv.dequeueOk_of_starts (h : Inv V s) {fd : ℤ} {wt : WaitType} {a : Addr} {place : π}
    {s₁ : Svc τ} {V' : List ℤ} (ha : lookup s.asyncHandlers fd = some a)
    (hstart : cancelStarts s fd wt = some (place, s₁)) (h₁ : Inv V' s₁) :
    dequeueOk s a wt = true := by
  unfold dequeueOk
  split
  next => rfl
  next d hd =>
    by_contra hbad
    simp only [cancelStarts] at hstart
    split at hstart
    · cases hstart
    · simp only [ha, hd, bind, Option.bind_some, Option.bind_eq_some_iff] at hstart
      obtain ⟨_, -, ⟨hnd, s₀⟩, hrun, heq⟩ := hstart
      obtain ⟨-, rfl⟩ := Prod.mk.inj (Option.some.inj heq)
      refine h.dequeue_misses hd (by simpa using hbad) hrun V' ?_
      exact h₁.frame rfl rfl rfl rfl le_rfl

/-- **A cancellation, exactly**, if the condition of its handler is exact. -/
theorem Inv.cancelSound_iff (h : Inv V s) (hst : s.status = .running) {fd : ℤ} {wt : WaitType}
    (hp : (s.view fd wt).isSome = true) {sound : Svc τ → Prop} {bodyOk : Svc τ → Bool}
    {body : Svc τ → Option (Svc τ)}
    (hsound : ∀ s₁, Inv (fd :: V) s₁ → s₁.Live → (sound s₁ ↔ bodyOk s₁ = true))
    (hbody : ∀ s₁, Inv (fd :: V) s₁ → s₁.Live → bodyOk s₁ = true →
      ∃ s₂, body s₁ = some s₂ ∧ Inv (fd :: V) s₂ ∧ Extends s₁ s₂) :
    CancelSound V sound body s fd wt ↔ cancelOk bodyOk body s fd wt = true := by
  cases ha : lookup s.asyncHandlers fd with
  | none => simp [view_none ha] at hp
  | some a =>
      obtain ⟨d, hd⟩ : ∃ d, pendingAt s.nodes a wt = some d := by
        simpa [view_of_lookup ha, Option.isSome_iff_exists] using hp
      simp only [cancelOk, hst, ne_eq, not_true_eq_false, decide_false, Bool.false_or, ha,
        Option.all_some, Bool.and_eq_true]
      constructor
      · rintro ⟨place, s₁, s₂, s₃, hstart, hinv₁, hs₁, hs₂, hs₃, hc⟩
        have hok := h.dequeueOk_of_starts ha hstart hinv₁
        obtain ⟨place', s₀, s₁', hstart', hwf, -, -, -, hext₁, hrun⟩ :=
          h.cancel_starts hst ha hd hok
        obtain ⟨rfl, rfl⟩ := Prod.mk.inj (Option.some.inj (hstart.symm.trans hstart'))
        have hbOk := (hsound s₁ hinv₁ (hext₁.live (.inl hst))).mp hs₁
        obtain ⟨s₂', hs₂', hinv₂, -⟩ := hbody s₁ hinv₁ (hext₁.live (.inl hst)) hbOk
        obtain rfl := Option.some.inj (hs₂.symm.trans hs₂')
        rw [hrun, hs₂, Option.bind_some, Option.map_eq_some_iff] at hs₃
        obtain ⟨s₃', hfin, heq⟩ := hs₃
        obtain ⟨-, rfl⟩ := Prod.mk.inj heq
        rw [hstart]
        refine ⟨hok, Bool.and_eq_true_iff.mpr ⟨hbOk, ?_⟩⟩
        rw [hs₂, Option.any_some]
        exact (hinv₂.finishCancel_iff hwf).mp ⟨_, hfin, hc⟩
      · rintro ⟨hok, hrest⟩
        obtain ⟨place, s₀, s₁, hstart, hwf, -, -, hinv₁, hext₁, hrun⟩ :=
          h.cancel_starts hst ha hd hok
        rw [hstart] at hrest
        obtain ⟨hbOk, hfin⟩ := Bool.and_eq_true_iff.mp hrest
        have hlive := hext₁.live (.inl hst)
        obtain ⟨s₂, hs₂, hinv₂, -⟩ := hbody s₁ hinv₁ hlive hbOk
        rw [hs₂, Option.any_some] at hfin
        obtain ⟨s₃, hs₃, hc⟩ := (hinv₂.finishCancel_iff hwf).mpr hfin
        refine ⟨place, s₁, s₂, s₃, hstart, hinv₁, (hsound s₁ hinv₁ hlive).mpr hbOk, hs₂, ?_, hc⟩
        rw [hrun, hs₂, Option.bind_some, hs₃, Option.map_some]

omit [LawfulFdTree τ π] in
/-- Cancelling what is not pending reaches no defect. -/
theorem cancelOk_of_vacant {bodyOk : Svc τ → Bool} {body : Svc τ → Option (Svc τ)} {fd : ℤ}
    {wt : WaitType} (hno : s.view fd wt = none) : cancelOk bodyOk body s fd wt = true := by
  have hstart : cancelStarts s fd wt = none := by
    simp only [cancelStarts, bind]
    split
    · rfl
    · simp only [Option.bind_eq_none_iff]
      intro place _ a ha d hd
      simp [view_of_lookup ha, hd] at hno
  rw [cancelOk, hstart, Bool.and_true, Bool.or_eq_true]
  right
  cases ha : lookup s.asyncHandlers fd with
  | none => rfl
  | some a =>
      have hd : pendingAt s.nodes a wt = none := by simpa [view_of_lookup ha] using hno
      rw [Option.all_some, dequeueOk, hd]

/-- **The calls of a handler, exactly**, at any depth. -/
theorem scriptSound_iff (script : Script) (h : Inv V s) (hlive : s.Live) :
    script.Sound V s ↔ scriptOk script s = true := by
  induction script generalizing V s with
  | ret => simp [Script.Sound, scriptOk]
  | tick dt rest ih =>
      exact ih (s := { s with clock := s.clock + dt }) (h.frame rfl rfl rfl rfl le_rfl) hlive
  | user ints errs rest ih =>
      exact ih (s := { s with ints := ints, errs := errs }) (h.frame rfl rfl rfl rfl le_rfl) hlive
  | call c inner rest ihInner ihRest =>
      have hcancel : ∀ {fd wt}, s.status = .running → (s.view fd wt).isSome = true →
          (CancelSound V (inner.Sound (fd :: V)) (exec inner) s fd wt ↔
            cancelOk (scriptOk inner) (exec inner) s fd wt = true) := fun hst hp =>
        h.cancelSound_iff hst hp (fun _ h₁ hl => ihInner h₁ hl) fun _ h₁ hl => h₁.exec inner hl
      have hrun : callOk (scriptOk inner) (exec inner) s c = true →
          ∃ code s', apiCall (exec inner) s c = some (code, s') ∧ Inv V s' ∧ s'.Live := by
        intro hok
        obtain ⟨code, s', hrun, hinv, hext⟩ := h.apiCall (fun _ => hlive) hok
          fun h₁ hlive₁ hok₁ => h₁.exec inner hlive₁ hok₁
        exact ⟨code, s', hrun, hinv, hext.live hlive⟩
      simp only [Script.Sound, scriptOk, Bool.and_eq_true]
      constructor
      · rintro ⟨hc, code, s', hrun', hinv, hrest⟩
        have hok : callOk (scriptOk inner) (exec inner) s c = true := by
          cases c with
          | sched event hnd status =>
              exact (h.sched_iff event hnd status).mp ⟨code, s', hrun', hinv⟩
          | schedTimeout event hnd status ms =>
              exact (h.schedTimeout_iff event hnd status ms).mp ⟨code, s', hrun', hinv⟩
          | cancel fd wt =>
              by_cases hst : s.status = .running
              · cases hp : s.view fd wt with
                | none => exact cancelOk_of_vacant hp
                | some r => exact (hcancel hst (by simp [hp])).mp (hc fd wt rfl hst (by simp [hp]))
              · simp [callOk, cancelOk, hst]
          | _ => rfl
        obtain ⟨code', s'', hrun'', -, hlive'⟩ := hrun hok
        obtain ⟨rfl, rfl⟩ := Prod.mk.inj (Option.some.inj (hrun'.symm.trans hrun''))
        refine ⟨hok, ?_⟩
        rw [hrun', Option.all_some]
        exact (ihRest hinv hlive').mp hrest
      · rintro ⟨hok, hrest⟩
        obtain ⟨code, s', hrun', hinv, hlive'⟩ := hrun hok
        rw [hrun', Option.all_some] at hrest
        refine ⟨?_, code, s', hrun', hinv, (ihRest hinv hlive').mpr hrest⟩
        rintro fd wt rfl hst hp
        exact (hcancel hst hp).mpr hok

/-- **A timeout, exactly.** -/
theorem Inv.timeoutSound_iff (h : Inv [] s) (hst : s.status = .running) (hne : s.timed ≠ [])
    (beh : Behaviour τ) (now : ℤ) : TimeoutSound beh s now ↔ timeoutOk beh s now = true := by
  obtain ⟨top, htop⟩ := exists_getElem? (List.length_pos_iff.mpr hne)
  obtain ⟨fd, d, s₀, s₁, -, -, -, hstart, -, hinv₁, hext₁, hrun⟩ := h.timeout_starts now htop
  have hlive := hext₁.live (.inl hst)
  simp only [TimeoutSound, timeoutOk, hstart, Option.some.injEq, Prod.mk.injEq, Option.all_some,
    Bool.and_eq_true]
  constructor
  · rintro ⟨_, _, _, _, s₂, s₃, ⟨rfl, rfl, rfl, rfl⟩, -, hs₁, hs₂, hs₃, hc⟩
    have hok := (scriptSound_iff _ hinv₁ hlive).mp hs₁
    obtain ⟨s₂', hs₂', hinv₂, -⟩ := hinv₁.exec _ hlive hok
    obtain rfl := Option.some.inj (hs₂.symm.trans hs₂')
    rw [timeoutFirst, if_pos rfl, hrun, hs₂, Option.bind_some] at hs₃
    rw [hs₂, Option.all_some]
    exact ⟨hok, (hinv₂.finishTimeout_iff _).mp ⟨s₃, hs₃, hc⟩⟩
  · rintro ⟨hok, hfin⟩
    obtain ⟨s₂, hs₂, hinv₂, -⟩ := hinv₁.exec _ hlive hok
    rw [hs₂, Option.all_some] at hfin
    obtain ⟨s₃, hs₃, hc⟩ := (hinv₂.finishTimeout_iff _).mpr hfin
    refine ⟨_, _, _, _, s₂, s₃, ⟨rfl, rfl, rfl, rfl⟩, hinv₁,
      (scriptSound_iff _ hinv₁ hlive).mpr hok, hs₂, ?_, hc⟩
    rw [timeoutFirst, if_pos rfl, hrun, hs₂, Option.bind_some, hs₃]

end

/-! ### Whole completions -/

/-- **Completions, exactly.** In a consistent running service let a pending event be
cancelled, or the first timed event be timed out, and let its handler do anything. The
completion is sound, and so is every completion inside it, if and only if no call of it
reaches a defect. If the handler reaches none it returns, and the completion returns and
leaves a consistent state if and only if the slot, or the node, that it has kept is good at
that moment. -/
theorem completion_consistent_iff {s : Svc RbMem} (h : Inv [] s) (hst : s.status = .running) :
    (∀ fd wt a script, lookup s.asyncHandlers fd = some a →
      (pendingAt s.nodes a wt).isSome = true →
      (CancelSound [] (script.Sound [fd]) (exec script) s fd wt ↔
        cancelOk (scriptOk script) (exec script) s fd wt = true) ∧
      (dequeueOk s a wt = true →
        ∃ place s₁, cancelStarts s fd wt = some (place, s₁) ∧ (scriptOk script s₁ = true →
          ∃ s₂, exec script s₁ = some s₂ ∧
            ((∃ s₃, iosvcCancel (exec script) s fd wt = some (.ok, s₃) ∧
              Completed [] s₂ s₃ fd) ↔ finishOk s₂ place fd = true)))) ∧
    (∀ (beh : Behaviour RbMem) (now : ℤ), s.timed ≠ [] →
      (TimeoutSound beh s now ↔ timeoutOk beh s now = true) ∧
      ∃ a fd hnd s₁, timeoutStarts s now = some (a, fd, hnd, s₁) ∧
        (scriptOk (beh hnd s₁) s₁ = true → ∃ s₂, exec (beh hnd s₁) s₁ = some s₂ ∧
          ((∃ s₃, timeoutFirst beh s true now = some s₃ ∧ Completed [] s₂ s₃ fd) ↔
            nodeOk s₂ a fd = true))) := by
  constructor
  · intro fd wt a script ha hp
    obtain ⟨d, hd⟩ := Option.isSome_iff_exists.mp hp
    refine ⟨h.cancelSound_iff hst (by simp [view_of_lookup ha, hd])
      (fun _ h₁ hl => scriptSound_iff script h₁ hl) fun _ h₁ hl => h₁.exec script hl, fun hok => ?_⟩
    obtain ⟨place, s₀, s₁, hstart, hwf, hdeq, rfl, hinv₁, hext₁, hrun⟩ :=
      h.cancel_starts hst ha hd hok
    refine ⟨place, _, hstart, fun hscript => ?_⟩
    obtain ⟨s₂, hs₂, hinv₂, -⟩ := hinv₁.exec script (hext₁.live (.inl hst)) hscript
    refine ⟨s₂, hs₂, ?_⟩
    rw [← hinv₂.finishCancel_iff hwf, hrun, hs₂, Option.bind_some]
    simp
  · intro beh now hne
    refine ⟨h.timeoutSound_iff hst hne beh now, ?_⟩
    obtain ⟨top, htop⟩ := exists_getElem? (List.length_pos_iff.mpr hne)
    obtain ⟨fd, d, s₀, s₁, -, -, -, hstart, -, hinv₁, hext₁, hrun⟩ := h.timeout_starts now htop
    refine ⟨_, fd, _, s₁, hstart, fun hscript => ?_⟩
    obtain ⟨s₂, hs₂, hinv₂, -⟩ := hinv₁.exec _ (hext₁.live (.inl hst)) hscript
    refine ⟨s₂, hs₂, ?_⟩
    rw [← hinv₂.finishTimeout_iff, timeoutFirst, if_pos rfl, hrun, hs₂, Option.bind_some]

/-- A call of `iosvc_sched_timeout` for a read, with a timeout of 7 milliseconds. -/
def timedReadCall (fd : ℤ) : SchedCall :=
  { readCall fd with milliseconds := some 0, ints := fun _ => 7 }

/-- The service once `iosvc_run` has set its status. -/
def Svc.started (s : Svc RbMem) : Svc RbMem :=
  { s with status := .running }

/-- Starting the service keeps what its calls rely on. -/
theorem SchedInv.started {s : Svc RbMem} {fds : List ℤ} (h : SchedInv s fds) : Inv [] s.started :=
  h.inv.frame rfl rfl rfl rfl le_rfl

/-- A handler that cancels the read of fd 1, whose handler schedules a read of fd 3, and then
schedules a write of fd 5. -/
def nestedScript : Script :=
  .call (.cancel 1 .read) (.call (.sched ⟨3, some .read⟩ ⟨some 0, 0⟩ none) .ret .ret)
    (.call (.sched ⟨5, some .write⟩ ⟨some 0, 0⟩ none) .ret .ret)

/-- Reads are pending on fds 1, 5 and 8; the one of fd 8 is cancelled or timed out, and its
handler makes calls for the other fds, one of which runs a handler of its own. -/
theorem completion_consistent_iff_nested :
    ∃ s : Svc RbMem, Inv [] s ∧ s.status = .running ∧
      CancelSound [] (nestedScript.Sound [8]) (exec nestedScript) s 8 .read ∧
      TimeoutSound (fun _ _ => nestedScript) s 7 := by
  obtain ⟨s, fds, hs, hsched⟩ := schedAll_new [readCall 1, readCall 5, timedReadCall 8] (by decide)
  have hobs : (schedAll (newService 0 (fun _ => 0) fun _ => .ok)
      [readCall 1, readCall 5, timedReadCall 8]).map (fun s =>
        ((lookup s.started.asyncHandlers 8, (pendingAt s.started.nodes 6 .read).isSome),
          cancelOk (scriptOk nestedScript) (exec nestedScript) s.started 8 .read,
          timeoutOk (fun _ _ => nestedScript) s.started 7, s.started.timed.isEmpty)) =
      some ((some 6, true), true, true, false) := by decide
  rw [hs, Option.map_some, Option.some.injEq] at hobs
  simp only [Prod.mk.injEq] at hobs
  obtain ⟨⟨ha, hp⟩, hcancel, htimeout, hne⟩ := hobs
  obtain ⟨hc, ht⟩ := completion_consistent_iff hsched.started rfl
  exact ⟨s.started, hsched.started, rfl, (hc 8 .read 6 nestedScript ha hp).1.mpr hcancel,
    (ht (fun _ _ => nestedScript) 7 fun hnil => by simp [hnil] at hne).1.mpr htimeout⟩

/-- A read and a write are pending on fd 5; the read is cancelled, and its handler cancels
the write. This frees the node, and the outer call then follows the slot to it. -/
theorem completion_after_nested_cancel :
    ¬ ∀ (s : Svc RbMem) (fd : ℤ) (wt : WaitType) (script : Script), Inv [] s →
      s.status = .running → (s.view fd wt).isSome = true →
      ∃ s₃, iosvcCancel (exec script) s fd wt = some (.ok, s₃) ∧ Inv [] s₃ := by
  intro h
  obtain ⟨s, fds, hs, hsched⟩ :=
    schedAll_new [readCall 5, { readCall 5 with event := ⟨5, some .write⟩ }] (by decide)
  have hobs : (schedAll (newService 0 (fun _ => 0) fun _ => .ok)
      [readCall 5, { readCall 5 with event := ⟨5, some .write⟩ }]).map (fun s =>
        ((s.started.view 5 .read).isSome,
          (iosvcCancel (exec (.call (.cancel 5 .write) .ret .ret)) s.started 5 .read).isSome)) =
      some (true, false) := by decide
  rw [hs, Option.map_some, Option.some.injEq, Prod.mk.injEq] at hobs
  obtain ⟨s₃, hrun, -⟩ := h s.started 5 .read (.call (.cancel 5 .write) .ret .ret)
    hsched.started rfl hobs.1
  simp [hrun] at hobs

/-! ### Two ways to a node -/

/-- **The two ways to locate a node agree.** In a search tree with parent pointers, whatever its
shape and colours, `rb_ref_to_this` of a node and `rb_probe` for its `fd` yield one slot and one
parent: the root reference, or a child of the parent. The end of a timeout is then the end of a
cancellation, with the same arguments of `rb_extract`. -/
theorem refToThis_eq_probe {s : Svc RbMem} {T : ColTree RbElem} {fd : ℤ} {a : Addr}
    (h : WellLinked s.asyncHandlers T) (ha : (a, fd) ∈ T.toList) :
    ∃ place parent, s.asyncHandlers.rbRefToThis a = some (place, parent) ∧
      s.asyncHandlers.rbProbe .root fd = some (place, parent) ∧
      s.asyncHandlers.load place = some (some a) ∧
      ((place = .root ∧ parent = none) ∨ ∃ p d, place = .child p d ∧ parent = some p) ∧
      finishTimeout s a = finishCancel s (place, parent) := by
  have hlook := h.lookup_iff.mpr ha
  obtain ⟨c, red, l, r, rfl, hp, -⟩ := h.position hlook
  have hload := (holds_plug.mp h.holds).1.load
  have href := h.refToThis hlook
  rw [hp] at href
  refine ⟨holePlace c, holeParent c, href, hp, hload, ?_, ?_⟩
  · cases c with
    | nil => exact .inl ⟨rfl, rfl⟩
    | cons f c => exact .inr ⟨f.elem.1, f.dir, rfl, rfl⟩
  · have href' : rbRefToThis s.asyncHandlers a = some (holePlace c, holeParent c) := href
    have hload' : load s.asyncHandlers (holePlace c, holeParent c) = some (some a) := hload
    simp only [finishTimeout, finishCancel, href', hload', bind, Option.bind_some]

/-- The left child of a root. -/
theorem refToThis_eq_probe_left :
    ∃ s : Svc RbMem, s.asyncHandlers = smallTree ∧
      s.asyncHandlers.rbRefToThis 1 = s.asyncHandlers.rbProbe .root 1 ∧
      finishTimeout s 1 = finishCancel s (.child 0 .left, some 0) := by
  let s : Svc RbMem := { newService 0 (fun _ => 0) fun _ => .ok with asyncHandlers := smallTree }
  have hmem : ((1 : Addr), (1 : ℤ)) ∈ [((1 : Addr), (1 : ℤ)), (0, 2)] := by decide
  obtain ⟨place, parent, href, hprobe, -, -, hfinish⟩ :=
    refToThis_eq_probe (s := s) smallTree_valid.wellLinked hmem
  have hplace : smallTree.rbProbe .root 1 = some (.child 0 .left, some 0) := by decide
  obtain ⟨rfl, rfl⟩ := Prod.mk.inj (Option.some.inj (hprobe.symm.trans hplace))
  exact ⟨s, rfl, href.trans hprobe.symm, hfinish⟩

end IoEngine
