import Mathlib.Data.Prod.Lex
import IoEngine.Completion

/-!
# The Dispatcher Step by Step

One pass of `dispatch_ready_events` looks at the entries of the `pollfd` array, and for each
of them makes up to three steps: a test of what `poll` has reported, and the completion of
an event if the test holds. This module brings the two forms of an entry, with a valid and
with an invalid fd, into this shape, and gives the rules by which the steps of an entry and
the entries of a pass are reasoned about.

## Main results

* `serveSteps_rule`: what every step keeps holds at the end of the entry.
* `dispatchLoop_rule`: what every entry keeps holds **at the end of the pass**, which ends,
  because every entry with something to report is looked at once.
* `Inv.serve_starts`, `Inv.dispatchCleanup`: one step, and the end of an entry.
-/

open BinHeap

namespace IoEngine

open FdTree Svc LawfulFdTree

/-! ### Poll bits -/

/-- Nothing but `POLLERR` is never requested. -/
theorem readDue_eq {τ : Type} {s : Svc τ} {i : ℕ} {e : PollFd} {p : WaitType → Bool}
    (he : s.pollfds.data[i]? = some e) (hev : e.events = requested p) (revents : PollMask) :
    readDue s i revents = some (hasRead revents) := by
  have hno : decide (e.events &&& ~~~ pollpri = pollerr) = false := by
    rw [hev]
    unfold requested
    generalize p .read = r
    generalize p .write = w
    generalize p .exception = x
    revert r w x
    decide
  unfold readDue
  split
  next hc =>
    simp only [Bool.and_eq_true, Bool.not_eq_true'] at hc
    rw [he, Option.map_some, hno, hc.1.1]
  next => rfl

/-- The events that `poll` has reported for a valid fd. -/
def PollFd.reported (e : PollFd) : List WaitType :=
  if e.revents &&& pollnval ≠ 0 then []
  else (if hasPriority e.revents then [.exception] else []) ++
    (if hasRead e.revents then [.read] else []) ++ if hasWrite e.revents then [.write] else []

/-- An event is reported by the bits that belong to its wait type alone. -/
theorem mem_reported {e : PollFd} {wt : WaitType} :
    wt ∈ e.reported ↔ e.revents &&& pollnval = 0 ∧ e.revents &&& dequeueMask wt ≠ 0 := by
  have hread : pollin ||| pollhup ||| pollrdband ||| pollrdnorm = dequeueMask .read := by decide
  unfold PollFd.reported
  by_cases hn : e.revents &&& pollnval = 0
  · cases wt <;>
      simp [hn, hasPriority, hasRead, hasWrite, hread, dequeueMask]
  · rw [if_pos hn]
    simp only [List.not_mem_nil, false_iff, not_and]
    exact fun hc => absurd hc hn

/-- Bits outside of the requested ones do not matter. -/
theorem and_eq_zero_of_subset {r req m : PollMask} (hsub : r &&& ~~~ req = 0)
    (hm : req &&& m = 0) : r &&& m = 0 := by
  have hr : r &&& m = (r &&& ~~~ req) &&& m ||| r &&& (req &&& m) := by
    ext i hi
    simp only [BitVec.getElem_and, BitVec.getElem_or, BitVec.getElem_not]
    cases r[i] <;> cases req[i] <;> simp
  rw [hr, hsub, hm]
  simp

/-- The bits that belong to a wait type alone are requested only if the event is pending. -/
theorem requested_and_dequeueMask {p : WaitType → Bool} {wt : WaitType} (h : p wt = false) :
    requested p &&& dequeueMask wt = 0 := by
  unfold requested
  cases wt <;> rw [h] <;> generalize p .read = r <;> generalize p .write = w <;>
    generalize p .exception = x <;> revert r w x <;> decide

/-! ### The steps of an entry -/

/-- A step: a test, which may read the entry at the current position, and the event that is
completed if it holds. -/
abbrev DispatchStep (τ : Type) := (Svc τ → Option Bool) × WaitType

section

variable {τ : Type} (i : ℕ)

/-- The steps of an entry with a valid fd. -/
def readySteps (revents : PollMask) : List (DispatchStep τ) :=
  [(fun _ => some (hasPriority revents), .exception), (fun s => readDue s i revents, .read),
    (fun _ => some (hasWrite revents), .write)]

/-- The steps of an entry with an invalid fd. -/
def invalidSteps (order : List (PollMask × WaitType)) : List (DispatchStep τ) :=
  order.map fun fw =>
    (fun s => (s.pollfds.data[i]?).map fun e => decide (e.events &&& fw.1 ≠ 0), fw.2)

/-- The steps of an entry at position `i`. -/
def PollFd.steps (e : PollFd) : List (DispatchStep τ) :=
  if e.revents &&& pollnval ≠ 0 then invalidSteps i invalidOrder else readySteps i e.revents

end

/-- The code with which the events of an entry are completed. -/
def PollFd.code (e : PollFd) : IoErrcode :=
  if e.revents &&& pollnval ≠ 0 then .invarg else .ok

/-- The dispatcher completes nothing with `EIO_TIMEOUT`. -/
theorem PollFd.code_ne_timeout (e : PollFd) : e.code ≠ .timeout := by
  unfold PollFd.code
  split <;> simp

section

variable {τ π : Type} [FdTree τ π]

/-- Make the steps of an entry. -/
def serveSteps (beh : Behaviour τ) (place : π) (fd : ℤ) (now : ℤ) (code : IoErrcode) :
    List (DispatchStep τ) → Svc τ → Option (Svc τ)
  | [], s => some s
  | (test, wt) :: rest, s => do
      let due ← test s
      let s ← serveIf due beh s place fd wt now code
      serveSteps beh place fd now code rest s

/-- What follows the steps of an entry. -/
def endEntry (i : ℕ) (place : π) (fd : ℤ) (invalid : Bool) (s : Svc τ) : Option (Bool × Svc τ) := do
  let e ← s.pollfds.data[i]?
  let s := if invalid then { s with pollfds := s.pollfds.set i { e with revents := 0 } } else s
  if e.events = 0 then (dispatchCleanup s place fd).map fun s => (false, s)
  else some (!invalid, s)

/-- The chain for `POLLNVAL` is made of the steps of an entry. -/
theorem dispatchInvalid_eq (beh : Behaviour τ) (i : ℕ) (place : π) (fd now : ℤ)
    (order : List (PollMask × WaitType)) (s : Svc τ) :
    dispatchInvalid beh i place fd now order s =
      serveSteps beh place fd now .invarg (invalidSteps i order) s := by
  induction order generalizing s with
  | nil => rfl
  | cons fw order ih =>
      simp only [dispatchInvalid, invalidSteps, List.map_cons, serveSteps, bind, Option.bind_map]
      congr 1
      funext e
      simp only [Function.comp]
      congr 1
      funext s'
      exact ih s'

/-- **An entry is its steps and what follows them.** -/
theorem dispatchEntry_eq {beh : Behaviour τ} {s : Svc τ} {i : ℕ} {now : ℤ} {e : PollFd}
    {place : π} (he : s.pollfds.data[i]? = some e)
    (hp : rbProbe s.asyncHandlers e.fd = some place) :
    dispatchEntry beh s i now = (serveSteps beh place e.fd now e.code (e.steps i) s).bind
      (endEntry i place e.fd (decide (e.revents &&& pollnval ≠ 0))) := by
  simp only [dispatchEntry, he, hp, bind, Option.bind_some]
  by_cases hn : e.revents &&& pollnval ≠ 0
  · simp only [PollFd.steps, PollFd.code, if_pos hn, dispatchInvalidEntry, dispatchInvalid_eq, bind]
    congr 1
    funext s'
    simp only [endEntry, decide_eq_true hn, if_true, Option.map_eq_bind, bind]
    rfl
  · simp only [PollFd.steps, PollFd.code, if_neg hn, dispatchReadyEntry, readySteps, serveSteps,
      bind, Option.bind_some, Option.bind_assoc]
    congr 1
    funext s₁
    congr 1
    funext due
    congr 1
    funext s₂
    congr 1
    funext s'
    simp only [endEntry, decide_eq_false hn, Bool.false_eq_true, if_false, Option.map_eq_bind, bind]
    rfl

/-- **The rule for the steps of an entry.** -/
theorem serveSteps_rule (beh : Behaviour τ) (place : π) (fd now : ℤ) (code : IoErrcode)
    {P : List (DispatchStep τ) → Svc τ → Prop}
    (hstep : ∀ {test wt rest s}, P ((test, wt) :: rest) s → ∃ due s', test s = some due ∧
      serveIf due beh s place fd wt now code = some s' ∧ P rest s')
    {steps : List (DispatchStep τ)} {s : Svc τ} (h : P steps s) :
    ∃ s', serveSteps beh place fd now code steps s = some s' ∧ P [] s' := by
  induction steps generalizing s with
  | nil => exact ⟨s, rfl, h⟩
  | cons st rest ih =>
      obtain ⟨test, wt⟩ := st
      obtain ⟨due, s₁, ht, hrun, h₁⟩ := hstep h
      obtain ⟨s', hrun', h'⟩ := ih h₁
      exact ⟨s', by simp only [serveSteps, ht, bind, Option.bind_some, hrun, hrun'], h'⟩

/-! ### The entries of a pass -/

/-- How many entries from a position on have something to report. -/
def reports (P : List PollFd) (i : ℕ) : ℕ :=
  ((P.drop i).filter fun e => e.revents ≠ 0).length

/-- Behind an entry no more is reported than at it. -/
theorem reports_succ_le (P : List PollFd) (i : ℕ) : reports P (i + 1) ≤ reports P i :=
  ((List.drop_sublist_drop_left P (Nat.le_succ i)).filter _).length_le

/-- The entries with something to report are counted by their fds. -/
theorem reports_le {P P' : List PollFd} {i i' : ℕ} (hnd : (P'.map PollFd.fd).Nodup)
    (h : ∀ e' ∈ P'.drop i', e'.revents ≠ 0 →
      ∃ e₀ ∈ P.drop i, e₀.fd = e'.fd ∧ e₀.revents = e'.revents) :
    reports P' i' ≤ reports P i := by
  have hsub : ((P'.drop i').filter fun e => e.revents ≠ 0).map PollFd.fd ⊆
      ((P.drop i).filter fun e => e.revents ≠ 0).map PollFd.fd := by
    intro fd hfd
    obtain ⟨e', he', rfl⟩ := List.mem_map.mp hfd
    obtain ⟨hm, hne⟩ := List.mem_filter.mp he'
    obtain ⟨e₀, hm₀, hfd₀, hr₀⟩ := h e' hm (by simpa using hne)
    exact List.mem_map.mpr ⟨e₀, List.mem_filter.mpr ⟨hm₀, by rw [hr₀]; exact hne⟩, hfd₀⟩
  have hnd' : (((P'.drop i').filter fun e => e.revents ≠ 0).map PollFd.fd).Nodup :=
    hnd.sublist ((List.filter_sublist.trans (List.drop_sublist _ _)).map _)
  have hle := (List.subperm_of_subset hnd' hsub).length_le
  simpa only [reports, List.length_map] using hle

/-- Every entry with something to report is looked at once. -/
theorem reports_lt {P P' : List PollFd} {i i' : ℕ} {e : PollFd} (he : P[i]? = some e)
    (hr : e.revents ≠ 0) (hnd : (P'.map PollFd.fd).Nodup)
    (h : ∀ e' ∈ P'.drop i', e'.revents ≠ 0 →
      ∃ e₀ ∈ P.drop (i + 1), e₀.fd = e'.fd ∧ e₀.revents = e'.revents) :
    reports P' i' < reports P i := by
  have hcons : P.drop i = e :: P.drop (i + 1) := by
    obtain ⟨hi, rfl⟩ := List.getElem?_eq_some_iff.mp he
    exact List.drop_eq_getElem_cons hi
  have hle : reports P' i' ≤ reports P (i + 1) := reports_le hnd h
  have hlt : reports P (i + 1) < reports P i := by
    rw [reports, reports, hcons, List.filter_cons_of_pos (by simpa using hr), List.length_cons]
    exact Nat.lt_succ_self _
  exact hle.trans_lt hlt

/-- An entry has been looked at: fewer entries have something to report behind the new position,
or not more, and it is nearer to the end. -/
def Advances (P : List PollFd) (i : ℕ) (P' : List PollFd) (i' : ℕ) : Prop :=
  reports P' i' < reports P i ∨
    reports P' i' ≤ reports P i ∧ P'.length - i' < P.length - i

/-- Going on to the next entry advances. -/
theorem Advances.pass {P : List PollFd} {i : ℕ} (hi : i < P.length) : Advances P i P (i + 1) :=
  .inr ⟨reports_succ_le P i, by omega⟩

/-- **The rule for a pass.** What every entry keeps holds at the end of the pass, which ends
because every entry advances it. -/
theorem dispatchLoop_rule {beh : Behaviour τ} {now : ℤ} {Q : Svc τ → ℕ → Prop}
    (hstep : ∀ {s i}, Q s i → i < s.pollfds.data.length →
      ∃ next s', dispatchEntry beh s i now = some (next, s') ∧
        Q s' (if next then i + 1 else i) ∧
        Advances s.pollfds.data i s'.pollfds.data (if next then i + 1 else i)) {s : Svc τ} {i : ℕ}
    (h : Q s i) :
    ∃ fuel s' i', dispatchLoop beh now fuel s i = some s' ∧ Q s' i' ∧
      s'.pollfds.data.length ≤ i' := by
  -- the order is lexicographic: first the reports, then the distance to the end
  generalize hm : toLex (reports s.pollfds.data i, s.pollfds.data.length - i) = m
  induction m using WellFoundedLT.induction generalizing s i with
  | ind m ih =>
      subst hm
      by_cases hi : i < s.pollfds.data.length
      · obtain ⟨next, s₁, hrun, h₁, hdec⟩ := hstep h hi
        have hlt : toLex (reports s₁.pollfds.data (if next then i + 1 else i),
            s₁.pollfds.data.length - (if next then i + 1 else i)) <
            toLex (reports s.pollfds.data i, s.pollfds.data.length - i) := by
          rw [Prod.Lex.toLex_lt_toLex]
          rcases hdec with hdec | ⟨hle, hlen⟩
          · exact .inl hdec
          · rcases hle.lt_or_eq with hlt | heq
            · exact .inl hlt
            · exact .inr ⟨heq, hlen⟩
        obtain ⟨fuel, s', i', hrun', h', hend⟩ := ih _ hlt h₁ rfl
        refine ⟨fuel + 1, s', i', ?_, h', hend⟩
        simp only [dispatchLoop, if_pos hi, hrun, bind, Option.bind_some, hrun']
      · exact ⟨1, s, i, by rw [dispatchLoop, if_neg hi], h, by omega⟩

end

/-! ### One step -/

section

variable {τ π : Type} [FdTree τ π]

/-- The state in which the handler of an event starts, when the event is completed by the
dispatcher, and the handler. -/
def serveStarts (s : Svc τ) (a : Addr) (fd : ℤ) (wt : WaitType) (now : ℤ) (code : IoErrcode) :
    Option (IoHandler × Svc τ) := do
  let (hnd, s) ← iosvcDequeue (s.note (.dequeued fd wt (servesLive s fd a wt))) a wt now code
  some (hnd, s.note (.invoked (.event fd wt code now) hnd s.clock s.ints s.errs))

variable [LawfulFdTree τ π] {V : List ℤ} {s : Svc τ}

/-- **One step**, up to where the handler starts: the dequeue is made on the live node of the
fd and on a pending event. -/
theorem Inv.serve_starts (h : Inv V s) {fd : ℤ} {a : Addr} {wt : WaitType} {place : π}
    {d : EventData} (now : ℤ) {code : IoErrcode} (ha : lookup s.asyncHandlers fd = some a)
    (hl : load s.asyncHandlers place = some (some a)) (hd : pendingAt s.nodes a wt = some d)
    (hok : dequeueOk s a wt = true) (hcode : code ≠ .timeout) :
    ∃ s₀ s₁, serveStarts s a fd wt now code = some (d.handler, s₁) ∧
      Dequeued (s.note (.dequeued fd wt true)) s₀ fd wt (d.pendingWith (entryOf s.timed a wt)) now
        code ∧
      s₁ = s₀.note (.invoked (.event fd wt code now) d.handler s₀.clock s₀.ints s₀.errs) ∧
      Inv (fd :: V) s₁ ∧ Extends s s₁ ∧
      ∀ beh : Behaviour τ, serve beh s place fd wt now code =
        IoEngine.exec (beh d.handler s₁) s₁ := by
  obtain ⟨n, hn, hpend⟩ := Option.bind_eq_some_iff.mp hd
  obtain ⟨hlive, -⟩ := EventNode.pending_eq_some.mp hpend
  have hsound : servesLive s fd a wt = true := by simp [servesLive, ha, hn, hpend]
  have hnote : Inv V (s.note (.dequeued fd wt true)) := h.frame rfl rfl rfl rfl le_rfl
  obtain ⟨s₀, hrun, hinv, hdeq⟩ := hnote.dequeue now code ha hd ((dequeueOk_iff hd).mp hok)
  have hview : (s.note (.dequeued fd wt true)).view fd wt =
      some (d.pendingWith (entryOf s.timed a wt)) := by
    rw [view_of_lookup (s := s.note (.dequeued fd wt true)) ha]
    exact congrArg (Option.map _) hd
  have hext : Extends s (s.note (.dequeued fd wt true)) :=
    extends_note s rfl (fun _ _ _ => rfl) (fun _ => id)
  obtain ⟨c, hc⟩ := Option.isSome_iff_exists.mp hlive
  refine ⟨s₀, _, ?_, hdeq, rfl, hinv.frame rfl rfl rfl rfl le_rfl,
    hext.trans (hdeq.extension hview hcode), fun beh => ?_⟩
  · simp only [serveStarts, hsound, hrun, bind, Option.bind_some]
  · simp only [serve, hl, (fdOf_iff h.tree).mpr ha, hsound, hrun, bind, Option.bind_some,
      callHandler, invoke, hc]

/-! ### The end of an entry -/

omit [LawfulFdTree τ π] in
/-- The node of `fd` has been removed, or nothing has happened but that a report was
cleared. -/
structure EntryEnd (s s' : Svc τ) (fd : ℤ) : Prop where
  status : s'.status = s.status
  view : s'.view = s.view
  others : ∀ fd', fd' ≠ fd → lookup s'.asyncHandlers fd' = lookup s.asyncHandlers fd'
  own : lookup s'.asyncHandlers fd = none ∨
    lookup s'.asyncHandlers fd = lookup s.asyncHandlers fd
  log : s'.log = s.log ∨ s'.log = .cleaned fd true :: s.log

/-- The slot found for the fd still holds its node. -/
def slotHolds (s : Svc τ) (place : π) (fd : ℤ) : Bool :=
  decide (load s.asyncHandlers place = some (lookup s.asyncHandlers fd))

/-- The entries behind a position, after the one at it has been removed. -/
theorem mem_drop_fillHole {l : List PollFd} {i : ℕ} {last : PollFd} (hi : i < l.length)
    (hlast : l[l.length - 1]? = some last) (e : PollFd) :
    e ∈ (l.set i last).dropLast.drop i ↔ e ∈ l.drop (i + 1) := by
  simp only [List.mem_iff_getElem?, List.getElem?_drop, getElem?_fillHole last hi]
  constructor
  · rintro ⟨j, hj⟩
    split at hj
    next hlt =>
      split at hj
      next hj0 =>
        refine ⟨l.length - 1 - (i + 1), ?_⟩
        rw [show i + 1 + (l.length - 1 - (i + 1)) = l.length - 1 by omega, hlast]
        exact hj
      next hj0 => exact ⟨j - 1, by rw [show i + 1 + (j - 1) = i + j by omega, hj]⟩
    next => cases hj
  · rintro ⟨j, hj⟩
    have hlt := (List.getElem?_eq_some_iff.mp hj).1
    by_cases hl : i + 1 + j = l.length - 1
    · rw [hl, hlast] at hj
      exact ⟨0, by rw [if_pos (by omega), if_pos (by omega), hj]⟩
    · exact ⟨j + 1, by rw [if_pos (by omega), if_neg (by omega), ← hj]; congr 1; omega⟩

/-- The report of one entry is cleared. -/
def Svc.clearReport (s : Svc τ) (i : ℕ) (e : PollFd) : Svc τ :=
  { s with pollfds := s.pollfds.set i { e with revents := 0 } }

/-- Clearing the report of an entry keeps the service consistent. -/
theorem Inv.clearReport (h : Inv V s) {i : ℕ} {e : PollFd} (he : s.pollfds.data[i]? = some e) :
    Inv V (s.clearReport i e) ∧ Extends s (s.clearReport i e) := by
  obtain ⟨hlt, rfl⟩ := List.getElem?_eq_some_iff.mp he
  refine ⟨h.setReports ?_, le_rfl, ⟨[], rfl, by simp⟩, .inl rfl, fun j e' he' hr => ?_,
    fun hl => hl.frame (fun _ _ _ => id) rfl le_rfl⟩
  · refine List.ext_getElem? fun j => ?_
    simp only [DynArray.set, List.getElem?_map, List.getElem?_set]
    split
    next hij => subst hij; simp [hlt]
    next => rfl
  · simp only [Svc.clearReport, DynArray.set, List.getElem?_set] at he'
    split at he'
    next =>
      obtain rfl := Option.some.inj he'
      exact absurd rfl hr
    next => exact ⟨j, e', le_rfl, he', rfl, rfl⟩

omit [LawfulFdTree τ π] in
/-- The removal at the end of an entry is of the right node. -/
theorem removesVacant_eq (s : Svc τ) (place : π) (fd : ℤ) :
    removesVacant s place fd = (slotHolds s place fd && vacant s fd) := by
  unfold removesVacant slotHolds vacant
  congr 1
  cases (lookup s.asyncHandlers fd).bind s.nodes with
  | none => rfl
  | some n =>
      rw [Option.any_some, Bool.eq_iff_iff, decide_eq_true_iff, EventNode.mask_eq_zero]
      simp only [List.all_cons, List.all_nil, Bool.and_true, Bool.and_eq_true,
        Option.isNone_iff_eq_none]
      exact ⟨fun ⟨hr, hw, hx⟩ wt => by cases wt <;> assumption,
        fun hno => ⟨hno .read, hno .write, hno .exception⟩⟩

/-- **The removal at the end of an entry** is of a node without an event: it succeeds if the slot
holds the node and its extraction repairs the tree. -/
theorem Inv.dispatchCleanup (fd : ℤ) {place : π} (h : Inv V s) (hwf : WfPlace τ place)
    (hslot : slotHolds s place fd = true) (hvac : vacant s fd = true)
    (hx : extractOk s.asyncHandlers fd = true) :
    ∃ s', dispatchCleanup s place fd = some s' ∧ Inv V s' ∧ Extends s s' ∧ EntryEnd s s' fd ∧
      Cleaned (s.note (.cleaned fd true)) s' fd := by
  obtain ⟨a, n, ha, hn, hz⟩ : ∃ a n, lookup s.asyncHandlers fd = some a ∧ s.nodes a = some n ∧
      n.mask = 0 := by
    unfold vacant at hvac
    split at hvac
    next => cases hvac
    next n hn =>
      obtain ⟨a, ha, hn⟩ := Option.bind_eq_some_iff.mp hn
      exact ⟨a, n, ha, hn, of_decide_eq_true hvac⟩
  have hl : load s.asyncHandlers place = some (some a) := by
    simpa [slotHolds, ha] using hslot
  have hnote : Inv V (s.note (.cleaned fd true)) := h.frame rfl rfl rfl rfl le_rfl
  obtain ⟨s', hrun, hinv, hc⟩ := hnote.cleanup V ha hn (EventNode.mask_eq_zero.mp hz)
    (slot_unique h.tree hwf hl ha) hx fun _ hm _ => hm
  have hext : Extends s (s.note (.cleaned fd true)) :=
    extends_note s rfl (fun _ _ _ => rfl) (fun _ => id)
  refine ⟨s', ?_, hinv, hext.trans hc.extension,
    ⟨by rw [hc.same]; rfl, hc.view, fun fd' hne => ?_, .inl ?_, .inr (by rw [hc.same]; rfl)⟩, hc⟩
  · simp only [IoEngine.dispatchCleanup, removesVacant_eq, hslot, hvac, Bool.and_self]
    exact hrun
  · rw [hc.lookup, Function.update_of_ne hne]
    rfl
  · rw [hc.lookup, Function.update_self]

omit [LawfulFdTree τ π] in
/-- **What the end of an entry does**: its node is kept, or, if the entry at the position requests
nothing, removed. The report of an invalid fd is cleared before. -/
inductive EntryEnds (s : Svc τ) (i : ℕ) (fd : ℤ) (invalid : Bool) (e : PollFd) :
    Bool → Svc τ → Prop
  | kept (hne : e.events ≠ 0) :
      EntryEnds s i fd invalid e (!invalid) (if invalid then s.clearReport i e else s)
  | removed {s' : Svc τ} (hz : e.events = 0)
      (hc : Cleaned ((if invalid then s.clearReport i e else s).note (.cleaned fd true)) s' fd) :
      EntryEnds s i fd invalid e false s'

/-- **The end of an entry** keeps the service consistent, and touches no event. -/
theorem Inv.endEntry {fd : ℤ} {i : ℕ} {place : π} {e : PollFd} (h : Inv V s)
    (hwf : WfPlace τ place) (he : s.pollfds.data[i]? = some e) (invalid : Bool)
    (hok : e.events = 0 → slotHolds s place fd = true ∧ vacant s fd = true ∧
      extractOk s.asyncHandlers fd = true) :
    ∃ next s', IoEngine.endEntry i place fd invalid s = some (next, s') ∧ Inv V s' ∧ Extends s s' ∧
      EntryEnd s s' fd ∧ EntryEnds s i fd invalid e next s' := by
  have hclear : Inv V (if invalid then s.clearReport i e else s) ∧
      Extends s (if invalid then s.clearReport i e else s) ∧
      EntryEnd s (if invalid then s.clearReport i e else s) fd := by
    cases invalid with
    | false => exact ⟨h, .refl s, rfl, rfl, fun _ _ => rfl, .inr rfl, .inl rfl⟩
    | true =>
        obtain ⟨hinv, hext⟩ := h.clearReport he
        exact ⟨hinv, hext, rfl, rfl, fun _ _ => rfl, .inr rfl, .inl rfl⟩
  obtain ⟨hinv, hext, hend⟩ := hclear
  have hrun : IoEngine.endEntry i place fd invalid s = if e.events = 0 then
      (IoEngine.dispatchCleanup (if invalid then s.clearReport i e else s) place fd).map
        fun s => (false, s)
      else some (!invalid, if invalid then s.clearReport i e else s) := by
    simp only [IoEngine.endEntry, he, bind, Option.bind_some]
    rfl
  by_cases hz : e.events = 0
  · obtain ⟨hslot, hvac, hx⟩ := hok hz
    obtain ⟨s', hrun', hinv', hext', hend', hc⟩ := hinv.dispatchCleanup fd hwf
      (by cases invalid <;> exact hslot) (by cases invalid <;> exact hvac)
      (by cases invalid <;> exact hx)
    refine ⟨false, s', by rw [hrun, if_pos hz, hrun', Option.map_some], hinv', hext.trans hext',
      ⟨hend'.status.trans hend.status, hend'.view.trans hend.view,
        fun fd' hne => (hend'.others fd' hne).trans (hend.others fd' hne), ?_, ?_⟩, .removed hz hc⟩
    · cases invalid <;> exact hend'.own
    · cases invalid <;> exact hend'.log
  · exact ⟨_, _, by rw [hrun, if_neg hz], hinv, hext, hend, .kept hz⟩

/-- **The end of an entry that stayed in its place**: the entries behind the new position are
those that were behind the old one, and, if the fd was invalid and has events left, its own,
without a report. -/
theorem Inv.endEntry_own {fd : ℤ} {i : ℕ} {place : π} {e : PollFd} (h : Inv [fd] s)
    (hwf : WfPlace τ place) (he : s.pollfds.data[i]? = some e) (hfd : e.fd = fd) (invalid : Bool)
    (hok : e.events = 0 → slotHolds s place fd = true ∧ extractOk s.asyncHandlers fd = true) :
    ∃ next s', IoEngine.endEntry i place fd invalid s = some (next, s') ∧ Inv [] s' ∧ Extends s s' ∧
      EntryEnd s s' fd ∧ ∀ e' : PollFd, e' ∈ s'.pollfds.data.drop (if next then i + 1 else i) ↔
        e' ∈ s.pollfds.data.drop (i + 1) ∨
          invalid = true ∧ e.events ≠ 0 ∧ e' = { e with revents := 0 } := by
  subst hfd
  have hlt := (List.getElem?_eq_some_iff.mp he).1
  obtain ⟨a, n, ha, hn, hidx⟩ := h.back i e he
  obtain ⟨e₀, he₀, -, hev, -⟩ := h.entry e.fd a n ha hn
  rw [hidx, he] at he₀
  obtain rfl := Option.some.inj he₀
  have hvac : vacant s e.fd = decide (e.events = 0) := by rw [vacant_eq ha hn, hev]
  obtain ⟨next, s', hrun, hinv, hext, hend, hends⟩ := h.endEntry hwf he invalid fun hz => by
    obtain ⟨hslot, hx⟩ := hok hz
    exact ⟨hslot, by rw [hvac, hz]; rfl, hx⟩
  have hdrop₁ : (s.clearReport i e).pollfds.data.drop (i + 1) = s.pollfds.data.drop (i + 1) :=
    List.drop_set_of_lt (Nat.lt_succ_self i)
  refine ⟨next, s', hrun, hinv.of_not_vacant ?_, hext, hend, fun e' => ?_⟩
  · cases hends with
    | kept hz => cases invalid <;> exact hvac.trans (decide_eq_false hz)
    | removed hz hc => exact vacant_of_absent (by rw [hc.lookup, Function.update_self])
  · cases hends with
    | kept hz =>
        cases invalid with
        | false => simp
        | true =>
            have he₁ : (s.clearReport i e).pollfds.data[i]? = some { e with revents := 0 } := by
              simp [Svc.clearReport, DynArray.set, hlt]
            obtain ⟨hlt₁, hget⟩ := List.getElem?_eq_some_iff.mp he₁
            simp only [Bool.not_true, Bool.false_eq_true, if_false, if_true]
            rw [List.drop_eq_getElem_cons hlt₁, hget, hdrop₁, List.mem_cons, or_comm]
            simp only [ne_eq, hz, not_false_eq_true, true_and]
    | removed hz hc =>
        obtain ⟨k, last, hk, hlast, hP⟩ := hc.polls
        obtain ⟨ek, hek, hfd⟩ := Option.map_eq_some_iff.mp hk
        rw [List.getLast?_eq_getElem?] at hlast
        simp only [hz, ne_eq, not_true_eq_false, false_and, and_false, or_false, hP,
          Bool.false_eq_true, if_false]
        cases invalid with
        | false =>
            obtain rfl : k = i := h.fd_inj hek he hfd
            exact mem_drop_fillHole hlt hlast e'
        | true =>
            obtain ⟨hinv₁, -⟩ := h.clearReport he
            have he₁ : (s.clearReport i e).pollfds.data[i]? = some { e with revents := 0 } := by
              simp [Svc.clearReport, DynArray.set, hlt]
            obtain rfl : k = i := hinv₁.fd_inj hek he₁ hfd
            have hlt₁ := (List.getElem?_eq_some_iff.mp he₁).1
            refine (mem_drop_fillHole (l := (s.clearReport k e).pollfds.data) hlt₁ hlast e').trans
              ?_
            rw [hdrop₁]

end

end IoEngine
