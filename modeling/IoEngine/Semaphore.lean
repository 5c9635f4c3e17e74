import IoEngine.Posting

/-!
# Semaphores

This module embeds `io_semaphore.c`. A waiting handler is handed to `iosvc_post` once the
semaphore has a permit for it; the handlers that wait are kept in a list, the last one
first.

The calls on a semaphore are made by code that also uses its service, so that a run of the
semaphore (`ledgerRun`) has with each call the state in which the service is found at it. The
ledger of a run says which handlers have come into the queue of the service.

## Main results

* `SemCall.run_cases`: **what one call does**, in five cases.
* `Balanced.step`, `SemInv.step`: **one call** keeps the account of permits and handlers.
* `ledgerRun_grants`: **in every order of the calls** the same number of handlers is posted.
-/

namespace IoEngine

variable {τ : Type}

/-! ### The calls -/

/-- `struct _io_sem_t`: the list of waiting handlers and the value. -/
structure IoSemaphore where
  handlerList : List IoHandler
  semVal : ℤ

/-- `iosem_create`. -/
def iosemCreate (initVal : Int32) : IoSemaphore := ⟨[], initVal.toInt⟩

/-- `iosem_wait`. -/
def iosemWait (sem : IoSemaphore) (s : Svc τ) (hnd : IoHandler) :
    IoErrcode × IoSemaphore × Svc τ :=
  if 0 < sem.semVal then
    let (code, s) := iosvcPost s hnd
    (code, { sem with semVal := sem.semVal - 1 }, s)
  else match s.alloc.malloc with
  | (none, al) => (.nomem, sem, { s with alloc := al })
  | (some _, al) =>
      (.ok, { sem with handlerList := hnd :: sem.handlerList }, { s with alloc := al })

/-- `iosem_signal`; `none` if the value overflows. -/
def iosemSignal (sem : IoSemaphore) (s : Svc τ) : Option (IoErrcode × IoSemaphore × Svc τ) :=
  if sem.semVal < 0 ∨ sem.handlerList = [] then
    if sem.semVal = 2 ^ 31 - 1 then none
    else some (.ok, { sem with semVal := sem.semVal + 1 }, s)
  else do
    let toSched ← sem.handlerList.head?
    let (code, s) := iosvcPost s toSched
    some (code, { sem with handlerList := sem.handlerList.tail }, s)

/-! ### Refused handlers -/

/-- **The service takes a handler** that is posted now: it runs or is ready, the handler has a
callback, and its queue has room or can grow. -/
def postOk (s : Svc τ) (hnd : IoHandler) : Bool :=
  (decide (s.status = .running) || decide (s.status = .ready)) && hnd.callback.isSome &&
    (decide (s.syncHandlers.elems.length ≠ s.syncHandlers.capacity) || s.alloc.ok s.alloc.next)

/-- A push succeeds when there is room, or can be. -/
theorem push_isSome {α : Type} (buf : CBuffer α) (x : α) (al : Alloc) :
    (buf.push x al).1.isSome =
      (decide (buf.elems.length ≠ buf.capacity) || al.ok al.next) := by
  unfold CBuffer.push Alloc.malloc
  by_cases hfull : buf.elems.length = buf.capacity
  · cases hok : al.ok al.next <;> simp [hfull]
  · simp [hfull]

/-- **What `iosvc_post` does**: a handler that is taken comes to the end of the queue, and one
that is refused does not. -/
theorem post_spec (s : Svc τ) (hnd : IoHandler) :
    ((iosvcPost s hnd).1 = .ok ↔ postOk s hnd = true) ∧
      (iosvcPost s hnd).2.syncHandlers.elems =
        s.syncHandlers.elems ++ if postOk s hnd then [hnd] else [] := by
  by_cases hst : s.status ≠ .running ∧ s.status ≠ .ready
  · have hno : postOk s hnd = false := by simp [postOk, hst]
    simp [iosvcPost, hst, hno]
  · have hst' : (decide (s.status = .running) || decide (s.status = .ready)) = true := by
      rw [not_and_or, not_not, not_not] at hst
      simpa using hst
    cases hcb : hnd.callback with
    | none => simp [iosvcPost, hst, hcb, postOk]
    | some f =>
        have hroom := push_isSome s.syncHandlers hnd s.alloc
        have hpost : postOk s hnd = (s.syncHandlers.push hnd s.alloc).1.isSome := by
          rw [hroom, postOk, hst', hcb]
          simp
        rw [hpost, iosvcPost, if_neg hst, hcb]
        rcases hp : s.syncHandlers.push hnd s.alloc with ⟨_ | buf, al⟩
        · simp
        · exact ⟨by simp, (push_elems hp).trans (by simp)⟩

/-! ### One call -/

/-- A call on a semaphore. -/
inductive SemCall
  | wait (hnd : IoHandler)
  | signal

/-- The handler that a call hands to `iosvc_post`, if it does. -/
def SemCall.grants (sem : IoSemaphore) : SemCall → Option IoHandler
  | .wait hnd => if 0 < sem.semVal then some hnd else none
  | .signal => if sem.semVal < 0 then none else sem.handlerList.head?

/-- Make a call. -/
def SemCall.run (sem : IoSemaphore) (s : Svc τ) : SemCall → Option (IoErrcode × IoSemaphore × Svc τ)
  | .wait hnd => some (iosemWait sem s hnd)
  | .signal => iosemSignal sem s

/-- **The condition**: a handler that the call posts is taken. -/
def SemCall.covered (sem : IoSemaphore) (s : Svc τ) (c : SemCall) : Bool :=
  (c.grants sem).all (postOk s)

/-- **What one call does**, in five cases. -/
theorem SemCall.run_cases {sem sem' : IoSemaphore} {s s' : Svc τ} {c : SemCall} {code : IoErrcode}
    (h : c.run sem s = some (code, sem', s')) :
    -- a wait with a permit
    (∃ hnd, c = .wait hnd ∧ c.grants sem = some hnd ∧
      sem' = { sem with semVal := sem.semVal - 1 } ∧ iosvcPost s hnd = (code, s')) ∨
    -- a wait without one, refused or kept
    (∃ hnd, c = .wait hnd ∧ c.grants sem = none ∧ code = .nomem ∧ sem' = sem ∧
      s'.syncHandlers = s.syncHandlers) ∨
    (∃ hnd, c = .wait hnd ∧ c.grants sem = none ∧ code = .ok ∧
      sem' = { sem with handlerList := hnd :: sem.handlerList } ∧
      s'.syncHandlers = s.syncHandlers) ∨
    -- a signal that is kept, or passed on
    (c = .signal ∧ c.grants sem = none ∧ code = .ok ∧
      sem' = { sem with semVal := sem.semVal + 1 } ∧ s' = s) ∨
    (∃ hnd rest, c = .signal ∧ c.grants sem = some hnd ∧ sem.handlerList = hnd :: rest ∧
      sem' = { sem with handlerList := rest } ∧ iosvcPost s hnd = (code, s')) := by
  cases c with
  | wait hnd =>
      have hrun := Option.some.inj h
      rw [iosemWait] at hrun
      split at hrun
      next hpos =>
        obtain ⟨hcode, hsem, hs⟩ := by simpa using hrun
        exact .inl ⟨hnd, rfl, if_pos hpos, hsem.symm, Prod.ext hcode hs⟩
      next hpos =>
        split at hrun
        next al hm =>
          obtain ⟨rfl, rfl, rfl⟩ := by simpa using hrun
          exact .inr (.inl ⟨hnd, rfl, if_neg hpos, rfl, rfl, rfl⟩)
        next p al hm =>
          obtain ⟨rfl, rfl, rfl⟩ := by simpa using hrun
          exact .inr (.inr (.inl ⟨hnd, rfl, if_neg hpos, rfl, rfl, rfl⟩))
  | signal =>
      simp only [SemCall.run, iosemSignal] at h
      split at h
      next hkeep =>
        split at h
        next => cases h
        next =>
          obtain ⟨rfl, rfl, rfl⟩ := by simpa using h
          refine .inr (.inr (.inr (.inl ⟨rfl, ?_, rfl, rfl, rfl⟩)))
          rcases hkeep with hneg | hnil
          · exact if_pos hneg
          · simp [SemCall.grants, hnil]
      next hpass =>
        rw [not_or] at hpass
        obtain ⟨hnd, rest, hl⟩ := List.exists_cons_of_ne_nil hpass.2
        simp only [hl, List.head?_cons, List.tail_cons, bind, Option.bind_some,
          Option.some.injEq, Prod.mk.injEq] at h
        obtain ⟨hcode, hsem, hs⟩ := h
        refine .inr (.inr (.inr (.inr ⟨hnd, rest, rfl, ?_, hl, hsem.symm, Prod.ext hcode hs⟩)))
        rw [SemCall.grants, if_neg hpass.1, hl]
        rfl

/-- A handler that a covered call posts is at the end of the queue afterwards. -/
theorem SemCall.taken {sem : IoSemaphore} {s s' : Svc τ} {c : SemCall} {hnd : IoHandler}
    {code : IoErrcode} (hc : c.covered sem s = true) (hg : c.grants sem = some hnd)
    (hpost : iosvcPost s hnd = (code, s')) :
    code = .ok ∧ s'.syncHandlers.elems = s.syncHandlers.elems ++ [hnd] := by
  have hok : postOk s hnd = true := (Option.all_eq_true _ _).mp hc hnd hg
  obtain ⟨hcode, helems⟩ := post_spec s hnd
  rw [hpost] at hcode helems
  exact ⟨hcode.mpr hok, by rw [helems, if_pos hok]⟩

/-! ### The ledger of a run -/

/-- The semaphore after a run, with the signals and the waits that returned `EIO_OK`, and the
handlers that the service has accepted. -/
structure SemLedger where
  sem : IoSemaphore
  signals : ℕ
  waits : List IoHandler
  accepted : List IoHandler

/-- A new semaphore. -/
def ledgerNew (initVal : Int32) : SemLedger := ⟨iosemCreate initVal, 0, [], []⟩

/-- Make a call and record it. What the service has accepted is what is new in its queue. -/
def SemLedger.step (l : SemLedger) (c : SemCall) (s : Svc τ) : Option SemLedger := do
  let (code, sem, s') ← c.run l.sem s
  some {
    sem := sem
    signals := match c with
      | .wait _ => l.signals
      | .signal => if code = .ok then l.signals + 1 else l.signals
    waits := match c with
      | .wait hnd => if code = .ok then hnd :: l.waits else l.waits
      | .signal => l.waits
    accepted := s'.syncHandlers.elems.drop s.syncHandlers.elems.length ++ l.accepted }

/-- Make calls one after another, each in a state of the service of its own. -/
def ledgerRun (l : SemLedger) : List (SemCall × Svc τ) → Option SemLedger
  | [] => some l
  | (c, s) :: cs => (l.step c s).bind fun l => ledgerRun l cs

/-- **Nothing is lost**: the initial value and the signals are the value and the accepted
handlers, and every handler whose wait returned `EIO_OK` is accepted or waits. -/
structure Balanced (v : ℤ) (l : SemLedger) : Prop where
  permits : v + l.signals = l.sem.semVal + l.accepted.length
  handlers : (l.accepted ++ l.sem.handlerList).Perm l.waits

/-- A new semaphore is balanced. -/
theorem balanced_new (v : Int32) : Balanced v.toInt (ledgerNew v) :=
  ⟨by simp [ledgerNew, iosemCreate], by simp [ledgerNew, iosemCreate]⟩

/-- The number of signals among calls. -/
def signalCount (cs : List (SemCall × Svc τ)) : ℕ :=
  (cs.filter fun c => match c.1 with
    | .wait _ => false
    | .signal => true).length

/-- The handlers of the waits among calls. -/
def waits (cs : List (SemCall × Svc τ)) : List IoHandler :=
  cs.filterMap fun c => match c.1 with
    | .wait hnd => some hnd
    | .signal => none

/-- **One call** that is covered keeps the balance. -/
theorem Balanced.step {v : ℤ} {l l' : SemLedger} {c : SemCall} {s : Svc τ} (h : Balanced v l)
    (hc : c.covered l.sem s = true) (hrun : l.step c s = some l') : Balanced v l' := by
  obtain ⟨⟨code, sem, s'⟩, hcall, hl⟩ := Option.bind_eq_some_iff.mp hrun
  obtain ⟨hsum, hperm⟩ := h
  obtain ⟨hnd, rfl, hg, rfl, hpost⟩ | ⟨hnd, rfl, -, rfl, rfl, hq⟩ | ⟨hnd, rfl, -, rfl, rfl, hq⟩ |
    ⟨rfl, -, rfl, rfl, rfl⟩ | ⟨hnd, rest, rfl, hg, hlist, rfl, hpost⟩ := SemCall.run_cases hcall
  · obtain ⟨rfl, hq⟩ := SemCall.taken hc hg hpost
    obtain rfl := Option.some.inj hl
    simp only [hq, List.drop_left, if_true]
    refine ⟨?_, hperm.cons hnd⟩
    simp only [List.length_append, List.length_singleton, Nat.cast_add, Nat.cast_one]
    omega
  · obtain rfl := Option.some.inj hl
    simp only [hq, List.drop_length, List.nil_append, reduceCtorEq, if_false]
    exact ⟨hsum, hperm⟩
  · obtain rfl := Option.some.inj hl
    simp only [hq, List.drop_length, List.nil_append, if_true]
    exact ⟨hsum, List.perm_middle.trans (hperm.cons hnd)⟩
  · obtain rfl := Option.some.inj hl
    simp only [List.drop_length, List.nil_append, if_true]
    refine ⟨?_, hperm⟩
    simp only [Nat.cast_add, Nat.cast_one]
    omega
  · obtain ⟨rfl, hq⟩ := SemCall.taken hc hg hpost
    obtain rfl := Option.some.inj hl
    simp only [hq, List.drop_left, if_true]
    refine ⟨?_, ?_⟩
    · simp only [List.length_append, List.length_singleton, Nat.cast_add, Nat.cast_one]
      omega
    · rw [hlist] at hperm
      exact List.perm_middle.symm.trans hperm

/-- A run whose calls are all covered keeps the balance. -/
theorem Balanced.run {v : ℤ} {l l' : SemLedger} {cs : List (SemCall × Svc τ)} (h : Balanced v l)
    (hc : ∀ cs₁ c s cs₂ l₁, cs = cs₁ ++ (c, s) :: cs₂ → ledgerRun l cs₁ = some l₁ →
      c.covered l₁.sem s = true)
    (hrun : ledgerRun l cs = some l') : Balanced v l' := by
  induction cs generalizing l with
  | nil =>
      obtain rfl := Option.some.inj hrun
      exact h
  | cons c cs ih =>
      obtain ⟨c, s⟩ := c
      obtain ⟨l₁, hstep, hrest⟩ := Option.bind_eq_some_iff.mp hrun
      refine ih (h.step (hc [] c s cs l rfl rfl) hstep) (fun cs₁ c₁ s₁ cs₂ l₂ heq hrun₁ => ?_) hrest
      refine hc ((c, s) :: cs₁) c₁ s₁ cs₂ l₂ (by rw [heq]; rfl) ?_
      rw [ledgerRun, hstep, Option.bind_some, hrun₁]

/-! ### The account -/

/-- **The account of a semaphore** with the initial value `v`: it is balanced, handlers wait only
without a permit, and have been accepted only with one. -/
structure SemInv (v : ℤ) (l : SemLedger) : Prop extends Balanced v l where
  waiting : l.sem.handlerList ≠ [] → l.sem.semVal ≤ 0
  granted : l.accepted ≠ [] → 0 ≤ l.sem.semVal

/-- A new semaphore is in order. -/
theorem semInv_new (v : Int32) : SemInv v.toInt (ledgerNew v) :=
  ⟨balanced_new v, by simp [ledgerNew, iosemCreate], by simp [ledgerNew]⟩

/-- **The number of accepted handlers** is determined by the number of waits and of signals. -/
theorem SemInv.grants {v : ℤ} {l : SemLedger} (h : SemInv v l) :
    l.accepted.length = min l.waits.length (max 0 (v + l.signals)).toNat := by
  have hlen := h.handlers.length_eq
  rw [List.length_append] at hlen
  have hsum := h.permits
  have hwait : l.sem.handlerList.length ≠ 0 → l.sem.semVal ≤ 0 := fun hne =>
    h.waiting fun hnil => hne (by rw [hnil]; rfl)
  have hgrant : l.accepted.length ≠ 0 → 0 ≤ l.sem.semVal := fun hne =>
    h.granted fun hnil => hne (by rw [hnil]; rfl)
  omega

/-- A call fails only if the value overflows. -/
theorem SemLedger.step_total {l : SemLedger} (c : SemCall) (s : Svc τ)
    (hov : l.sem.semVal + signalCount [(c, s)] < 2 ^ 31) : ∃ l', l.step c s = some l' := by
  cases c with
  | wait hnd => exact ⟨_, rfl⟩
  | signal =>
      have hval : l.sem.semVal ≠ 2 ^ 31 - 1 := by
        simp only [signalCount, List.filter_cons, if_true, List.filter_nil, List.length_singleton,
          Nat.cast_one] at hov
        omega
      have hrun : ∃ r, SemCall.signal.run l.sem s = some r := by
        rw [SemCall.run, iosemSignal]
        split
        next => exact ⟨_, rfl⟩
        next hpass =>
          rw [not_or] at hpass
          obtain ⟨hnd, rest, hl⟩ := List.exists_cons_of_ne_nil hpass.2
          exact ⟨_, by rw [hl]; rfl⟩
      obtain ⟨r, hr⟩ := hrun
      exact ⟨_, by rw [SemLedger.step, hr]; rfl⟩

/-- **One call** that is covered keeps the account, and is counted. -/
theorem SemInv.step {v : ℤ} {l l' : SemLedger} {c : SemCall} {s : Svc τ} (h : SemInv v l)
    (hc : c.covered l.sem s = true) (hrun : l.step c s = some l') :
    SemInv v l' ∧ l'.signals = l.signals + signalCount [(c, s)] ∧
      ((∀ k, s.alloc.ok k = true) → l'.waits = (waits [(c, s)]).reverse ++ l.waits) := by
  have hbalanced := h.toBalanced.step hc hrun
  obtain ⟨⟨code, sem, s'⟩, hcall, hl⟩ := Option.bind_eq_some_iff.mp hrun
  obtain ⟨hnd, rfl, hg, rfl, hpost⟩ | ⟨hnd, rfl, hg, rfl, rfl, hq⟩ | ⟨hnd, rfl, hg, rfl, rfl, hq⟩ |
    ⟨rfl, hg, rfl, rfl, rfl⟩ | ⟨hnd, rest, rfl, hg, hlist, rfl, hpost⟩ := SemCall.run_cases hcall
  · obtain ⟨rfl, -⟩ := SemCall.taken hc hg hpost
    have hpos : 0 < l.sem.semVal := by
      by_contra hno
      simp [SemCall.grants, hno] at hg
    obtain rfl := Option.some.inj hl
    refine ⟨⟨hbalanced, fun hne => ?_, fun _ => ?_⟩, rfl, fun _ => rfl⟩
    · have := h.waiting hne
      omega
    · show 0 ≤ l.sem.semVal - 1
      omega
  · obtain rfl := Option.some.inj hl
    refine ⟨⟨hbalanced, h.waiting, ?_⟩, rfl, fun hall => ?_⟩
    · simpa only [hq, List.drop_length, List.nil_append] using h.granted
    · -- the memory for the entry of the list is there
      have hpos : ¬ 0 < l.sem.semVal := fun hpos => by simp [SemCall.grants, hpos] at hg
      simp [SemCall.run, iosemWait, hpos, Alloc.malloc, hall] at hcall
  · have hpos : ¬ 0 < l.sem.semVal := fun hpos => by simp [SemCall.grants, hpos] at hg
    obtain rfl := Option.some.inj hl
    refine ⟨⟨hbalanced, fun _ => not_lt.mp hpos, ?_⟩, rfl, fun _ => rfl⟩
    simpa only [hq, List.drop_length, List.nil_append] using h.granted
  · obtain rfl := Option.some.inj hl
    refine ⟨⟨hbalanced, fun hne => ?_, fun hne => ?_⟩, rfl, fun _ => rfl⟩
    · show l.sem.semVal + 1 ≤ 0
      obtain ⟨hnd, hhead⟩ := Option.isSome_iff_exists.mp (List.isSome_head?.mpr hne)
      by_contra hpos
      rw [SemCall.grants, if_neg (by omega), hhead] at hg
      cases hg
    · show 0 ≤ l.sem.semVal + 1
      have := h.granted (by simpa using hne)
      omega
  · obtain ⟨rfl, -⟩ := SemCall.taken hc hg hpost
    have hzero : l.sem.semVal = 0 := by
      have hle := h.waiting (by simp [hlist])
      have hge : ¬ l.sem.semVal < 0 := fun hneg => by simp [SemCall.grants, hneg] at hg
      omega
    obtain rfl := Option.some.inj hl
    exact ⟨⟨hbalanced, fun _ => hzero.le, fun _ => hzero.ge⟩, rfl, fun _ => rfl⟩

/-- **The service accepts every post** that the calls of a run make. -/
def semAccepts (l : SemLedger) : List (SemCall × Svc τ) → Bool
  | [] => true
  | (c, s) :: cs => c.covered l.sem s && (l.step c s).all fun l => semAccepts l cs

/-- A run keeps the account. -/
theorem SemInv.run {v : ℤ} {l : SemLedger} (h : SemInv v l) (cs : List (SemCall × Svc τ))
    (hacc : semAccepts l cs = true) (hov : v + l.signals + signalCount cs < 2 ^ 31) :
    ∃ l', ledgerRun l cs = some l' ∧ SemInv v l' ∧ l'.signals = l.signals + signalCount cs ∧
      ((∀ c ∈ cs, ∀ k, c.2.alloc.ok k = true) → l'.waits = (waits cs).reverse ++ l.waits) := by
  induction cs generalizing l with
  | nil => exact ⟨l, rfl, h, rfl, fun _ => rfl⟩
  | cons cs₀ cs ih =>
      obtain ⟨c, s⟩ := cs₀
      have hcount : signalCount ((c, s) :: cs) = signalCount [(c, s)] + signalCount cs := by
        rw [signalCount, signalCount, signalCount, ← List.length_append, ← List.filter_append]
        rfl
      have hwaits : waits ((c, s) :: cs) = waits [(c, s)] ++ waits cs := by
        rw [waits, waits, waits, ← List.filterMap_append]
        rfl
      simp only [semAccepts, Bool.and_eq_true] at hacc
      obtain ⟨l₁, hrun₁⟩ := SemLedger.step_total (l := l) c s (by
        have := h.permits
        omega)
      obtain ⟨h₁, hsig₁, hw₁⟩ := h.step hacc.1 hrun₁
      rw [hrun₁, Option.all_some] at hacc
      obtain ⟨l', hrun', h', hsig', hw'⟩ := ih h₁ hacc.2 (by omega)
      refine ⟨l', by rw [ledgerRun, hrun₁, Option.bind_some, hrun'], h', by omega, fun hall => ?_⟩
      rw [hw' fun c hc => hall c (List.mem_cons_of_mem _ hc), hw₁ (hall _ List.mem_cons_self),
        hwaits, List.reverse_append, List.append_assoc]

/-- **Grants do not depend on the order.** Whatever the initial value and the order of the
calls, if the service accepts every post and the value does not overflow, the number of
handlers that have come into its queue is the lower one of the number of waits and of the permits
there ever were; the value is the permits left, every handler that waits has come into the queue
or is in the list, once, and handlers wait only without a permit. Where memory lasts, no wait is
refused. -/
theorem ledgerRun_grants (v : Int32) (cs : List (SemCall × Svc τ))
    (hacc : semAccepts (ledgerNew v) cs = true) (hov : v.toInt + signalCount cs < 2 ^ 31) :
    ∃ l, ledgerRun (ledgerNew v) cs = some l ∧
      l.accepted.length = min l.waits.length (max 0 (v.toInt + signalCount cs)).toNat ∧
      l.sem.semVal = v.toInt + signalCount cs - l.accepted.length ∧
      (l.accepted ++ l.sem.handlerList).Perm l.waits ∧
      (l.sem.handlerList ≠ [] → l.sem.semVal ≤ 0) ∧
      ((∀ c ∈ cs, ∀ k, c.2.alloc.ok k = true) → l.waits = (waits cs).reverse) := by
  have hzero : (ledgerNew v).signals = 0 := rfl
  obtain ⟨l, hrun, h, hsig, hw⟩ := (semInv_new v).run cs hacc (by
    rw [hzero]
    simpa using hov)
  rw [hzero, Nat.zero_add] at hsig
  have hsum := h.permits
  refine ⟨l, hrun, hsig ▸ h.grants, by omega, h.handlers, h.waiting, fun hall => ?_⟩
  rw [hw hall]
  exact List.append_nil _

/-- Three waits and two signals, each with a service that has nothing to do. -/
def negativeCalls : List (SemCall × Svc FdMap) :=
  [.wait ⟨some 1, 0⟩, .signal, .wait ⟨some 2, 0⟩, .signal, .wait ⟨some 3, 0⟩].map fun c =>
    (c, iosvcCreate ⟨fun _ => true, 0⟩ 0 (fun _ => 0) fun _ => .ok)

/-- On a semaphore with the initial value `-1` these post one handler. -/
theorem ledgerRun_grants_negative :
    semAccepts (ledgerNew (-1)) negativeCalls = true ∧
      ∃ l, ledgerRun (ledgerNew (-1)) negativeCalls = some l ∧ l.accepted.length = 1 ∧
        l.sem.semVal = 0 := by
  have hacc : semAccepts (ledgerNew (-1)) negativeCalls = true := rfl
  obtain ⟨l, hrun, haccepted, hval, -, -, hwaited⟩ :=
    ledgerRun_grants (-1) negativeCalls hacc (by decide)
  have hlen : l.waits.length = 3 := by
    rw [hwaited (by simp [negativeCalls, iosvcCreate])]
    rfl
  have hsig : (-1 : Int32).toInt + signalCount negativeCalls = 1 := rfl
  rw [hlen, hsig] at haccepted
  rw [hsig] at hval
  have hone : l.accepted.length = 1 := haccepted
  exact ⟨hacc, l, hrun, hone, by omega⟩

end IoEngine
