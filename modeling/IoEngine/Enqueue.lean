import IoEngine.Consistent

/-!
# Adding Events

`iosvc_enqueue` takes up to three things from the allocator, a `pollfd`, a node and an
event block, and gives back what it took when a later one fails. `iosvc_sched_timeout`
takes a heap slot before it.

## Main results

* `Inv.enqueue_cases`: a call of `iosvc_enqueue` is **refused without effect**, or adds
  exactly the requested event, or is one of a new fd's exception event whose block cannot
  be allocated (`dangles`). An event of an fd that has no node is added on the condition
  that the insertion leaves the new node in the slot probed for (`insertOk`).
* `Inv.sched`, `Inv.schedTimeout`: the public calls, on these conditions, which are exact
  (`Inv.sched_iff`, `Inv.schedTimeout_iff`).
-/

open BinHeap

namespace IoEngine

open FdTree Svc LawfulFdTree

variable {τ π : Type} [FdTree τ π]

/-! ### Allocation -/

/-- The allocator after one attempt. -/
theorem malloc_eq (al : Alloc) :
    al.malloc = (none, { al with next := al.next + 1 }) ∨
      al.malloc = (some al.next, { al with next := al.next + 1 }) := by
  unfold Alloc.malloc
  split
  · exact .inr rfl
  · exact .inl rfl

/-- The allocator has gone on: no address is handed out twice, and the pattern of failures
is not touched. -/
structure Alloc.Grows (al al' : Alloc) : Prop where
  ok : al'.ok = al.ok
  next : al.next ≤ al'.next

theorem Alloc.Grows.refl (al : Alloc) : al.Grows al := ⟨rfl, le_rfl⟩

theorem Alloc.Grows.trans {al₁ al₂ al₃ : Alloc} (h₁ : al₁.Grows al₂) (h₂ : al₂.Grows al₃) :
    al₁.Grows al₃ :=
  ⟨h₂.ok.trans h₁.ok, h₁.next.trans h₂.next⟩

/-- A question to the allocator takes it on. -/
theorem Alloc.Grows.succ (al : Alloc) : al.Grows { al with next := al.next + 1 } :=
  ⟨rfl, Nat.le_succ _⟩

/-- The allocator goes on when an array grows. -/
theorem emplaceBack_grows {α : Type} [Inhabited α] (dar : DynArray α) (al : Alloc) :
    al.Grows (dar.emplaceBack al).2 := by
  unfold DynArray.emplaceBack
  split
  · obtain h | h := malloc_eq al <;> simp only [h] <;> exact .succ al
  · exact .refl al

/-- A grown array has one more element. -/
theorem emplaceBack_data {α : Type} [Inhabited α] {dar dar' : DynArray α} {al al' : Alloc}
    (h : dar.emplaceBack al = (some dar', al')) : dar'.data = dar.data ++ [default] := by
  unfold DynArray.emplaceBack at h
  split at h
  · split at h
    · simp at h
    · simp only [Prod.mk.injEq, Option.some.injEq] at h
      rw [← h.1]
  · simp only [Prod.mk.injEq, Option.some.injEq] at h
    rw [← h.1]

/-- An attempt that fails is one of the pattern's failures. -/
theorem malloc_none {al al' : Alloc} (h : al.malloc = (none, al')) : ∃ k, al.ok k = false := by
  unfold Alloc.malloc at h
  split at h
  · simp at h
  next hk => exact ⟨al.next, by simpa using hk⟩

/-- An array that cannot grow meets a failure. -/
theorem emplaceBack_none {α : Type} [Inhabited α] {dar : DynArray α} {al al' : Alloc}
    (h : dar.emplaceBack al = (none, al')) : ∃ k, al.ok k = false := by
  unfold DynArray.emplaceBack at h
  split at h
  · split at h
    next hm => exact malloc_none hm
    next => simp at h
  · simp at h

/-- A node without storage for an event meets a failure. -/
theorem reserveSlot_fails {al al' : Alloc} {n n' : EventNode} {wt : WaitType}
    (h : reserveSlot al n wt = (al', n', none)) : ∃ k, al.ok k = false := by
  unfold reserveSlot reserveEx reserveRdWr at h
  repeat' split at h
  all_goals first | exact malloc_none ‹_› | simp at h

/-- The allocator goes on when storage is reserved in a node. -/
theorem reserveSlot_grows (al : Alloc) (n : EventNode) (wt : WaitType) :
    al.Grows (reserveSlot al n wt).1 := by
  have hm : al.Grows al.malloc.2 := by
    obtain h | h := malloc_eq al <;> rw [h] <;> exact .succ al
  unfold reserveSlot reserveEx reserveRdWr
  repeat' split
  all_goals first | exact .refl al | simp_all

/-! ### The runs of `iosvc_enqueue` -/

/-- A node with its `pollfd` at position `i`. -/
def EventNode.withIdx (n : EventNode) (i : ℕ) : EventNode :=
  { n with pollfdIdx := i }

/-- The data of a new event. -/
def newEvent (hnd : IoHandler) (status : Ptr) : EventData := ⟨hnd, status, -1⟩

section runs

/-- No node can be allocated. -/
theorem enqueueAt_new_noNode {s : Svc τ} {place : π} {fd : ℤ} {wt : WaitType} {al : Alloc}
    {hnd : IoHandler} {status : Ptr} (hl : load s.asyncHandlers place = some none)
    (hm : s.alloc.malloc = (none, al)) :
    enqueueAt s place true fd wt hnd status =
      some (.nomem, none, { s with alloc := al, pollfds := s.pollfds.popBack }) := by
  simp [enqueueAt, reserveEvtMem, hl, reserveNode, hm]

/-- The state in which storage is reserved in a new node. -/
def withNode (s : Svc τ) (a : Addr) (fd : ℤ) (n : EventNode) (al : Alloc) : Svc τ :=
  { s with
    alloc := al
    asyncHandlers := makeRbnode s.asyncHandlers a fd
    nodes := Function.update s.nodes a (some n) }

/-- Reserving storage in a new node. -/
theorem reserveEvtMem_new {s : Svc τ} {place : π} {a : Addr} {n' : EventNode} {fd : ℤ}
    {wt : WaitType} {al al' : Alloc} (hl : load s.asyncHandlers place = some none)
    (hm : s.alloc.malloc = (some a, al)) {slot : Option EvtSlot}
    (hr : reserveSlot al .zero wt = (al', n', slot)) :
    reserveEvtMem s place fd wt =
      (linkNode (withNode s a fd n' al') place a true slot.isSome).map fun s' =>
        (slot.map fun slot => (a, slot), s') := by
  simp only [reserveEvtMem, hl, bind, Option.bind_some, reserveNode, hm, Function.update_self,
    hr, Option.isNone_none, Function.update_idem]
  exact (Option.map_eq_bind
    (x := linkNode (withNode s a fd n' al') place a true slot.isSome)).symm

/-- Without storage a new node is freed, and then written to the slot. -/
theorem enqueueAt_new_noBlock {s : Svc τ} {place : π} {a : Addr} {n' : EventNode} (fd : ℤ)
    {wt : WaitType} {al al' : Alloc} (hnd : IoHandler) (status : Ptr)
    (hl : load s.asyncHandlers place = some none) (hm : s.alloc.malloc = (some a, al))
    (hr : reserveSlot al .zero wt = (al', n', none)) :
    enqueueAt s place true fd wt hnd status =
      (store (free (makeRbnode s.asyncHandlers a fd) a) place a).map fun t =>
        (.nomem, none, { s with
          alloc := al'
          asyncHandlers := t
          nodes := Function.update s.nodes a none
          pollfds := s.pollfds.popBack }) := by
  rw [enqueueAt, reserveEvtMem_new hl hm hr]
  cases hst : store (free (makeRbnode s.asyncHandlers a fd) a) place a <;>
    simp [linkNode, withNode, hst]

/-- With storage in a new node the call does not fail. -/
theorem enqueueAt_new_code {s : Svc τ} {place : π} {a : Addr} {n' : EventNode} {fd : ℤ}
    {wt : WaitType} {al al' : Alloc} {hnd : IoHandler} {status : Ptr} {slot : EvtSlot}
    (hl : load s.asyncHandlers place = some none) (hm : s.alloc.malloc = (some a, al))
    (hr : reserveSlot al .zero wt = (al', n', some slot)) {r : IoErrcode × Ptr × Svc τ}
    (h : enqueueAt s place true fd wt hnd status = some r) : r.1 = .ok := by
  rw [enqueueAt, reserveEvtMem_new hl hm hr] at h
  simp only [bind, Option.bind_eq_some_iff, Option.map_eq_some_iff] at h
  obtain ⟨-, ⟨s', -, rfl⟩, h⟩ := h
  simp only [Option.map_some, Option.bind_eq_some_iff, Option.some.injEq] at h
  obtain ⟨-, -, -, -, -, -, -, -, -, -, -, -, rfl⟩ := h
  rfl

variable [LawfulFdTree τ π] {s : Svc τ} {place : π} {a : Addr} {n n' : EventNode} {fd : ℤ}
  {wt : WaitType} {al al' : Alloc} {hnd : IoHandler} {status : Ptr}

/-- With storage in a new node the tree is the one into which the node has been inserted, with
the node written to the slot once more. -/
theorem enqueueAt_new_tree {slot : EvtSlot} (hl : load s.asyncHandlers place = some none)
    (hm : s.alloc.malloc = (some a, al)) (hr : reserveSlot al .zero wt = (al', n', some slot))
    {r : IoErrcode × Ptr × Svc τ} (h : enqueueAt s place true fd wt hnd status = some r) :
    ∃ t, rbInsert (makeRbnode s.asyncHandlers a fd) a place = some t ∧
      store t place a = some r.2.2.asyncHandlers := by
  rw [enqueueAt, reserveEvtMem_new hl hm hr] at h
  simp only [bind, Option.bind_eq_some_iff, Option.map_eq_some_iff] at h
  obtain ⟨-, ⟨s', hlink, rfl⟩, h⟩ := h
  simp only [linkNode, withNode, Option.isSome_some, if_true, bind, Option.bind_eq_some_iff,
    Option.some.injEq] at hlink
  obtain ⟨-, ⟨t, hins, t', hst, rfl⟩, t'', hst', rfl⟩ := hlink
  obtain rfl : t' = t'' := by
    rw [store_same (load_store hst)] at hst'
    exact Option.some.inj hst'
  simp only [Option.map_some, Option.bind_eq_some_iff, Option.some.injEq] at h
  obtain ⟨s₁, h₁, p, -, b, -, s₂, h₂, h⟩ := h
  obtain ⟨n, -, e, -, rfl⟩ := h
  refine ⟨t, hins, hst.trans ?_⟩
  simp only [modifyEvt, bind, Option.bind_eq_some_iff, Option.some.injEq] at h₁
  obtain ⟨_, -, _, -, rfl⟩ := h₁
  simp only [if_true, modifyNode, Option.bind_eq_some_iff, Option.map_eq_some_iff,
    Option.some.injEq] at h₂
  obtain ⟨_, ⟨_, -, rfl⟩, rfl⟩ := h₂
  rfl

/-- Reserving storage in the node at a slot. -/
theorem reserveEvtMem_existing (hl : load s.asyncHandlers place = some (some a))
    (hn : s.nodes a = some n) {slot : Option EvtSlot}
    (hr : reserveSlot s.alloc n wt = (al', n', slot)) :
    reserveEvtMem s place fd wt = some (slot.map fun slot => (a, slot),
      { s with alloc := al', nodes := Function.update s.nodes a (some n') }) := by
  simp [reserveEvtMem, hl, reserveNode, hn, hr, linkNode, store_same hl]

/-- Without storage nothing changes in the node at the slot. -/
theorem enqueueAt_existing_none (hl : load s.asyncHandlers place = some (some a))
    (hn : s.nodes a = some n) (hr : reserveSlot s.alloc n wt = (al', n', none)) :
    enqueueAt s place false fd wt hnd status = some (.nomem, none, { s with alloc := al' }) := by
  have hupd : Function.update s.nodes a (some n') = s.nodes := by
    rw [reserveSlot_none hr, ← hn, Function.update_eq_self]
  simp [enqueueAt, reserveEvtMem_existing hl hn hr, hupd]

/-- The event is written to the storage reserved in the node at the slot. -/
theorem enqueueAt_existing_some (fd : ℤ) (hnd : IoHandler) (status : Ptr)
    (hl : load s.asyncHandlers place = some (some a))
    (hn : s.nodes a = some n) {slot : EvtSlot}
    (hr : reserveSlot s.alloc n wt = (al', n', some slot)) (hres : Reserved n n' wt slot)
    {e : PollFd} (he : s.pollfds.data[n.pollfdIdx]? = some e) :
    enqueueAt s place false fd wt hnd status = some (.ok, some a, { s with
      alloc := al'
      nodes := Function.update s.nodes a (some (n'.assign (newEvent hnd status) slot))
      pollfds := s.pollfds.set n.pollfdIdx { e with events := e.events ||| enqueueMask wt } }) := by
  obtain ⟨d, hd⟩ := Option.isSome_iff_exists.mp hres.isSome
  simp [enqueueAt, reserveEvtMem_existing hl hn hr, modifyEvt, hd, hl, hres.pollfdIdx, he,
    newEvent]

/-- The event is written to the storage reserved in a new node, which has been inserted
and is in the slot. -/
theorem enqueueAt_new_some (hnd : IoHandler) (status : Ptr) {P : DynArray PollFd} {k : ℕ} {t : τ}
    {slot : EvtSlot}
    (hl : load s.asyncHandlers place = some none) (hm : s.alloc.malloc = (some a, al))
    (hr : reserveSlot al .zero wt = (al', n', some slot)) (hres : Reserved .zero n' wt slot)
    (hins : rbInsert (makeRbnode s.asyncHandlers a fd) a place = some t)
    (hload : load t place = some (some a)) (hP : s.pollfds = P) (hk : P.data.length = k + 1) :
    enqueueAt s place true fd wt hnd status = some (.ok, some a, { s with
      alloc := al'
      asyncHandlers := t
      nodes := Function.update s.nodes a
        (some ((n'.assign (newEvent hnd status) slot).withIdx k))
      pollfds := P.set k ⟨fd, enqueueMask wt, 0⟩ }) := by
  obtain ⟨d, hd⟩ := Option.isSome_iff_exists.mp hres.isSome
  have hlink : linkNode (withNode s a fd n' al') place a true true =
      some { s with
        alloc := al'
        asyncHandlers := t
        nodes := Function.update s.nodes a (some n') } := by
    simp [linkNode, withNode, hins, store_same hload]
  simp [enqueueAt, reserveEvtMem_new hl hm hr, hlink, modifyEvt, modifyNode, hd, hload, hP, hk,
    DynArray.set, newEvent, EventNode.withIdx]

end runs

/-! ### What an enqueue does -/

/-- What enqueueing an event of `fd`, in the node at `a`, does. -/
structure Enqueued (s s' : Svc τ) (fd : ℤ) (wt : WaitType) (hnd : IoHandler) (status : Ptr)
    (a : Addr) : Prop where
  /-- the rest of the service is untouched -/
  same : s' = { s with
    asyncHandlers := s'.asyncHandlers
    nodes := s'.nodes
    pollfds := s'.pollfds
    alloc := s'.alloc }
  alloc : s.alloc.Grows s'.alloc
  /-- the node is the fd's own or a new one -/
  node : lookup s.asyncHandlers fd = some a ∨
    lookup s.asyncHandlers fd = none ∧ s.nodes a = none
  lookup : lookup s'.asyncHandlers = Function.update (lookup s.asyncHandlers) fd (some a)
  /-- the event is there, and no other is touched -/
  pending : ∀ b w, pendingAt s'.nodes b w =
    if b = a ∧ w = wt then some (newEvent hnd status) else pendingAt s.nodes b w
  /-- the `pollfd`s stay where they are, and a new one has nothing to report -/
  polls : ∃ tail, s'.pollfds.data.map (fun e => (e.fd, e.revents)) =
    s.pollfds.data.map (fun e => (e.fd, e.revents)) ++ tail ∧ ∀ x ∈ tail, x.2 = 0

section

variable [LawfulFdTree τ π] {V : List ℤ} {s : Svc τ}

/-- The slot found for an fd holds its node. -/
theorem Inv.probe (h : Inv V s) (fd : ℤ) : ∃ place, rbProbe s.asyncHandlers fd = some place ∧
    load s.asyncHandlers place = some (lookup s.asyncHandlers fd) :=
  probe_total h.tree fd

/-- **Adding an event to a node.** -/
theorem Inv.enqueueExisting (h : Inv V s) {fd : ℤ} {a : Addr} {n n' : EventNode}
    {wt : WaitType} {hnd : IoHandler} (status : Ptr) {slot : EvtSlot} {e : PollFd} {al : Alloc}
    (ha : lookup s.asyncHandlers fd = some a) (hn : s.nodes a = some n)
    (hno : n.pending wt = none) (hres : Reserved n n' wt slot) (hcb : hnd.callback.isSome = true)
    (he : s.pollfds.data[n.pollfdIdx]? = some e) (hal : s.alloc.Grows al) :
    ∀ s', s' = { s with
      alloc := al
      nodes := Function.update s.nodes a (some (n'.assign (newEvent hnd status) slot))
      pollfds := (s.pollfds.set n.pollfdIdx { e with events := e.events ||| enqueueMask wt }) } →
    Inv V s' ∧ Enqueued s s' fd wt hnd status a := by
  rintro s' rfl
  obtain ⟨e', he', -, heev, -⟩ := h.entry fd a n ha hn
  obtain rfl : e = e' := Option.some.inj (he.symm.trans he')
  have hlt := (List.getElem?_eq_some_iff.mp he).1
  have hp : (n'.assign (newEvent hnd status) slot).pending =
      Function.update n.pending wt (some (newEvent hnd status)) := hres.pending_assign hcb
  have hpend : ∀ b w, pendingAt
      (Function.update s.nodes a (some (n'.assign (newEvent hnd status) slot))) b w =
      if b = a ∧ w = wt then some (newEvent hnd status) else pendingAt s.nodes b w := by
    intro b w
    by_cases hb : b = a
    · subst hb
      by_cases hw : w = wt
      · simp [pendingAt, hp, hw]
      · simp [pendingAt, hp, hw, hn]
    · simp [pendingAt, hb]
  have hmask : e.events ||| enqueueMask wt = (n'.assign (newEvent hnd status) slot).mask := by
    rw [heev, EventNode.mask, ← requested_update, EventNode.mask, hp]
    congr 1
    funext w
    by_cases hw : w = wt
    · simp [hw]
    · rw [Function.update_of_ne hw, Function.update_of_ne hw]
  refine ⟨h.setNode ha hn rfl hal.next (Function.update_self ..) (hres.wf.assign hres.getEvtData _)
    (by rw [EventNode.pollfdIdx_assign, hres.pollfdIdx])
    (fun b hb => by simp only [Function.update_of_ne hb]) (fun i => ?_) h.heap (fun k e' he' => ?_)
    (fun b w d hd ht => ?_) (fun _ => id) (fun _ hz => ?_),
    ⟨rfl, hal, .inl ha, by rw [← ha, Function.update_eq_self], hpend, [], ?_, by simp⟩⟩
  · by_cases hi : i = n.pollfdIdx
    · subst hi
      simp [DynArray.set, List.getElem?_set_self hlt, he, hmask]
    · simp [DynArray.set, List.getElem?_set_ne (Ne.symm hi), hi]
  · obtain ⟨d, hd, hk⟩ := h.linked k e' he'
    refine ⟨d, ?_, hk⟩
    rw [hpend, if_neg, hd]
    rintro ⟨hc, hw⟩
    rw [hc, hw] at hd
    simp [pendingAt, hn, hno] at hd
  · rw [hpend] at hd
    split at hd
    · obtain rfl := Option.some.inj hd
      simp [newEvent] at ht
    · exact h.timers b w d hd ht
  · rw [EventNode.mask_eq_zero] at hz
    simpa [hp] using hz wt
  · refine List.ext_getElem? fun i => ?_
    simp only [List.append_nil, List.getElem?_map, DynArray.set]
    by_cases hi : n.pollfdIdx = i
    · subst hi
      rw [List.getElem?_set_self hlt, he]
      rfl
    · rw [List.getElem?_set_ne hi]

/-- **Adding a node** with its `pollfd`. -/
theorem Inv.addNode (h : Inv V s) {s' : Svc τ} {fd : ℤ} {a : Addr} {n : EventNode}
    (habs : lookup s.asyncHandlers fd = none) (hfresh : s.nodes a = none)
    (htree : Valid s'.asyncHandlers)
    (hlook : lookup s'.asyncHandlers = Function.update (lookup s.asyncHandlers) fd (some a))
    (hnext : s.alloc.next ≤ s'.alloc.next) (ha : a < s'.alloc.next)
    (hnodes : s'.nodes = Function.update s.nodes a (some n)) (hwf : n.Wf)
    (hpoll : s'.pollfds.data = s.pollfds.data ++ [⟨fd, n.mask, 0⟩])
    (hidx : n.pollfdIdx = s.pollfds.data.length) (hmask : n.mask ≠ 0)
    (htimed : s'.timed = s.timed) (hnew : ∀ wt d, n.pending wt = some d → d.ddlHeapIdx < 0) :
    Inv V s' := by
  have hself : s'.nodes a = some n := by rw [hnodes, Function.update_self]
  -- the other fds have other nodes, which are as before
  have hother : ∀ {fd' b}, fd' ≠ fd → lookup s.asyncHandlers fd' = some b →
      b ≠ a ∧ s'.nodes b = s.nodes b := by
    intro fd' b hfd hb
    have hba : b ≠ a := by
      rintro rfl
      simpa [hfresh] using (h.dom b).mpr ⟨fd', hb⟩
    exact ⟨hba, by rw [hnodes, Function.update_of_ne hba]⟩
  refine ⟨htree, fun b => ?_, fun b hb => ?_, fun b k hk => ?_, fun fd' b k hb hk => ?_,
    fun i e he => ?_, htimed ▸ h.heap, ?_, ?_⟩
  · rw [hlook]
    by_cases hb : b = a
    · subst hb
      simp only [hself, Option.isSome_some, true_iff]
      exact ⟨fd, Function.update_self ..⟩
    · rw [hnodes, Function.update_of_ne hb, h.dom b]
      constructor
      · rintro ⟨fd', hb'⟩
        refine ⟨fd', ?_⟩
        rw [Function.update_of_ne, hb']
        rintro rfl
        rw [habs] at hb'
        cases hb'
      · rintro ⟨fd', hb'⟩
        by_cases hfd : fd' = fd
        · rw [hfd, Function.update_self] at hb'
          exact absurd (Option.some.inj hb').symm hb
        · exact ⟨fd', by rwa [Function.update_of_ne hfd] at hb'⟩
  · by_cases hba : b = a
    · exact hba ▸ ha
    · rw [hnodes, Function.update_of_ne hba] at hb
      exact lt_of_lt_of_le (h.fresh b hb) hnext
  · by_cases hba : b = a
    · subst hba
      rw [hself] at hk
      exact Option.some.inj hk ▸ hwf
    · rw [hnodes, Function.update_of_ne hba] at hk
      exact h.wf b k hk
  · rw [hlook] at hb
    rw [hpoll]
    by_cases hfd : fd' = fd
    · subst hfd
      rw [Function.update_self] at hb
      obtain rfl := Option.some.inj hb
      rw [hself] at hk
      obtain rfl := Option.some.inj hk
      exact ⟨_, by rw [hidx, List.getElem?_concat_length], rfl, rfl, fun _ => hmask⟩
    · rw [Function.update_of_ne hfd] at hb
      rw [(hother hfd hb).2] at hk
      obtain ⟨e, he, hefd, hev, hne⟩ := h.entry fd' b k hb hk
      have hlt := (List.getElem?_eq_some_iff.mp he).1
      exact ⟨e, by rw [List.getElem?_append_left hlt, he], hefd, hev, hne⟩
  · rw [hpoll] at he
    rw [hlook]
    by_cases hi : i < s.pollfds.data.length
    · rw [List.getElem?_append_left hi] at he
      obtain ⟨b, k, hb, hk, hki⟩ := h.back i e he
      have hfd : e.fd ≠ fd := by
        intro hc
        rw [hc, habs] at hb
        cases hb
      exact ⟨b, k, by rw [Function.update_of_ne hfd, hb], by rw [(hother hfd hb).2, hk], hki⟩
    · have hi' := (List.getElem?_eq_some_iff.mp he).1
      simp only [List.length_append, List.length_singleton] at hi'
      obtain rfl : i = s.pollfds.data.length := by omega
      rw [List.getElem?_concat_length] at he
      obtain rfl := Option.some.inj he
      exact ⟨a, n, Function.update_self .., hself, hidx⟩
  · intro k e he
    rw [htimed] at he
    obtain ⟨d, hd, hk⟩ := h.linked k e he
    refine ⟨d, ?_, hk⟩
    rw [hnodes, pendingAt, Function.update_of_ne, ← hd]
    · rfl
    · intro hc
      rw [hc] at hd
      simp [pendingAt, hfresh] at hd
  · intro b wt d hd ht
    rw [htimed]
    by_cases hb : b = a
    · subst hb
      rw [pendingAt, hself] at hd
      have := hnew wt d hd
      omega
    · rw [pendingAt, hnodes, Function.update_of_ne hb] at hd
      exact h.timers b wt d hd ht

/-- **Adding the event of a new fd.** -/
theorem Inv.enqueueNew (h : Inv V s) {fd : ℤ} {a : Addr} {n : EventNode} {wt : WaitType}
    {hnd : IoHandler} (status : Ptr) {slot : EvtSlot} {al : Alloc} {t : τ} {P : DynArray PollFd}
    (habs : lookup s.asyncHandlers fd = none) (hres : Reserved .zero n wt slot)
    (hcb : hnd.callback.isSome = true) (ha : s.alloc.next ≤ a) (hal : a < al.next)
    (hgrows : s.alloc.Grows al)
    (ht : Valid t) (hlook : lookup t = Function.update (lookup s.asyncHandlers) fd (some a))
    (hP : P.data = s.pollfds.data ++ [⟨fd, enqueueMask wt, 0⟩]) :
    ∀ s', s' = { s with
      alloc := al
      asyncHandlers := t
      nodes := (Function.update s.nodes a
        (some ((n.assign (newEvent hnd status) slot).withIdx s.pollfds.data.length)))
      pollfds := P } →
    Inv V s' ∧ Enqueued s s' fd wt hnd status a := by
  rintro s' rfl
  have hfresh : s.nodes a = none := by
    rw [← Option.not_isSome_iff_eq_none]
    exact fun hs => (h.fresh a hs).not_ge ha
  have hp : ((n.assign (newEvent hnd status) slot).withIdx s.pollfds.data.length).pending =
      Function.update (fun _ => none) wt (some (newEvent hnd status)) := by
    have := hres.pending_assign (d := newEvent hnd status) hcb
    rwa [funext EventNode.pending_zero] at this
  have hmask : enqueueMask wt =
      ((n.assign (newEvent hnd status) slot).withIdx s.pollfds.data.length).mask := by
    rw [EventNode.mask, hp]
    cases wt <;> simp [requested]
  refine ⟨h.addNode habs hfresh ht hlook hgrows.next hal rfl (hres.wf.assign hres.getEvtData _)
    (by rw [← hmask]; exact hP) rfl ?_ rfl (fun w d hd => ?_),
    ⟨rfl, hgrows, .inr ⟨habs, hfresh⟩, hlook, fun b w => ?_, [(fd, 0)], by simp [hP], by simp⟩⟩
  · rw [← hmask]
    cases wt <;> decide
  · rw [hp] at hd
    by_cases hw : w = wt
    · subst hw
      rw [Function.update_self] at hd
      obtain rfl := Option.some.inj hd
      exact Int.negSucc_lt_zero 0
    · rw [Function.update_of_ne hw] at hd
      cases hd
  · by_cases hb : b = a
    · subst hb
      by_cases hw : w = wt
      · simp [pendingAt, hp, hw]
      · simp [pendingAt, hp, hw, hfresh]
    · simp [pendingAt, hb]

/-! ### The outcomes of an enqueue -/

/-- `reserve_evt_mem`'s event block cannot be allocated, though the `pollfd` and the node
before it can. -/
def blockFails (pollfds : DynArray PollFd) (al : Alloc) : Bool :=
  match pollfds.emplaceBack al with
  | (none, _) => false
  | (some _, al) =>
      match al.malloc with
      | (none, _) => false
      | (some _, al) => al.malloc.1.isNone

/-- The allocator gives the call a `pollfd` and a node. -/
def obtains (pollfds : DynArray PollFd) (al : Alloc) : Bool :=
  match pollfds.emplaceBack al with
  | (none, _) => false
  | (some _, al) => al.malloc.1.isSome

/-- The call is not refused for the status of the service or its arguments. -/
def Svc.accepts (s : Svc τ) (event : IoEvent) (hnd : IoHandler) : Bool :=
  decide (s.status = .ready ∨ s.status = .running) && hnd.callback.isSome &&
    event.waitType.isSome

omit [LawfulFdTree τ π] in
/-- The call is for the exception event of an fd without a node, and the event block cannot
be allocated, though what comes before it can: the new node is freed, and then written to
the tree. -/
def dangles (s : Svc τ) (al : Alloc) (event : IoEvent) (hnd : IoHandler) : Bool :=
  s.accepts event hnd && decide (event.waitType = some .exception) &&
    (lookup s.asyncHandlers event.fd).isNone && blockFails s.pollfds al

omit [LawfulFdTree τ π] in
/-- An enqueue that reaches no defect: it does not leave a freed node behind, and, if it
inserts a new node, the insertion leaves it in the slot probed for. -/
def enqueueOk (s : Svc τ) (al : Alloc) (event : IoEvent) (hnd : IoHandler) : Bool :=
  !dangles s al event hnd &&
    (!(s.accepts event hnd && (lookup s.asyncHandlers event.fd).isNone && obtains s.pollfds al) ||
      insertOk s.asyncHandlers event.fd)

/-- The state in which `iosvc_enqueue` runs: that of the service but for a heap slot. -/
def Svc.withSlot (s : Svc τ) (heap : DynArray AsyncHeapEntry) (al : Alloc) : Svc τ :=
  { s with timedEventsHeap := heap, alloc := al }

/-- The call has been refused: nothing but storage has changed. -/
structure Refused (s s' : Svc τ) : Prop where
  same : s' = { s with alloc := s'.alloc, pollfds := s'.pollfds }
  polls : s'.pollfds.data = s.pollfds.data
  alloc : s.alloc.Grows s'.alloc

/-- There is a reason to refuse the call: the status of the service or its arguments, the
event being pending already, or an allocation that fails. -/
def Excused (s : Svc τ) (al : Alloc) (event : IoEvent) (hnd : IoHandler) : Prop :=
  s.accepts event hnd = false ∨
    (∃ wt, event.waitType = some wt ∧ (s.view event.fd wt).isSome = true) ∨
    ∃ k, al.ok k = false

/-- What a call of `iosvc_enqueue` with the result `res` has done. -/
inductive EnqueueOutcome (V : List ℤ) (s : Svc τ) (heap : DynArray AsyncHeapEntry) (al : Alloc)
    (event : IoEvent) (hnd : IoHandler) (status : Ptr)
    (res : Option (IoErrcode × Ptr × Svc τ)) : Prop
  /-- it has been refused, for a reason and without effect -/
  | refused {code : IoErrcode} {s' : Svc τ} (hwhy : Excused s al event hnd)
      (hgood : enqueueOk s al event hnd = true) (hcode : code ≠ .ok)
      (hs : Refused (s.withSlot heap al) s') (hres : res = some (code, none, s'))
  /-- it has left a freed node in the tree -/
  | dangling (h : dangles s al event hnd = true)
      (hbad : ∀ r, res = some r → ¬ Valid r.2.2.asyncHandlers)
  /-- it has added the event, in a new node if the fd had none, and then the tree is in order
  exactly if the insertion leaves the node in the slot probed for -/
  | added {wt : WaitType} (hwt : event.waitType = some wt) (hacc : s.accepts event hnd = true)
      (hview : s.view event.fd wt = none) (hcode : ∀ r, res = some r → r.1 = .ok)
      (hfresh : dangles s al event hnd = false)
      (hnew : lookup s.asyncHandlers event.fd = none → obtains s.pollfds al = true)
      (hok : (lookup s.asyncHandlers event.fd = none →
          insertOk s.asyncHandlers event.fd = true) →
        ∃ a s', Inv V s' ∧ Enqueued s s' event.fd wt hnd status a ∧
          res = some (.ok, some a, { s' with timedEventsHeap := heap }))
      (hbad : lookup s.asyncHandlers event.fd = none → insertOk s.asyncHandlers event.fd = false →
        ∀ r, res = some r → ¬ Valid r.2.2.asyncHandlers)

/-- An enqueue for an fd that has a node. -/
theorem Inv.enqueue_present (h : Inv V s) (heap : DynArray AsyncHeapEntry) {al : Alloc}
    (hal : s.alloc.Grows al) {event : IoEvent} {hnd : IoHandler} (status : Ptr)
    {wt : WaitType} {place : π} {a : Addr} {n : EventNode}
    (hwt : event.waitType = some wt) (hacc : s.accepts event hnd = true)
    (hl : load s.asyncHandlers place = some (some a))
    (ha : lookup s.asyncHandlers event.fd = some a) (hn : s.nodes a = some n) :
    EnqueueOutcome V s heap al event hnd status
      (if n.isScheduled wt then some (.inprogress, none, s.withSlot heap al)
        else enqueueAt (s.withSlot heap al) place false event.fd wt hnd status) := by
  by_cases hsch : n.isScheduled wt = true
  · refine .refused (.inr (.inl ⟨wt, hwt, ?_⟩)) (by simp [enqueueOk, dangles, ha]) (by simp)
      ⟨rfl, rfl, .refl _⟩ (if_pos hsch)
    rwa [view_isSome ha hn, ← EventNode.isScheduled_eq]
  rw [if_neg hsch]
  rw [EventNode.isScheduled_eq, Bool.not_eq_true, Option.isSome_eq_false_iff,
    Option.isNone_iff_eq_none] at hsch
  have hcb : hnd.callback.isSome = true := by
    simp only [Svc.accepts, Bool.and_eq_true] at hacc
    exact hacc.1.2
  have hnext := reserveSlot_grows al n wt
  obtain ⟨e, he, -⟩ := h.entry event.fd a n ha hn
  rcases hr : reserveSlot al n wt with ⟨al', n', _ | slot⟩
  · rw [hr] at hnext
    refine .refused (.inr (.inr (reserveSlot_fails hr))) (by simp [enqueueOk, dangles, ha])
      (by simp) ?_ (enqueueAt_existing_none hl hn hr)
    exact ⟨rfl, rfl, hnext⟩
  · rw [hr] at hnext
    have hres := reserveSlot_spec (h.wf a n hn) hr
    have hrun := enqueueAt_existing_some (s := s.withSlot heap al) event.fd hnd status hl hn hr
      hres he
    refine .added hwt hacc (by simp [view_of_lookup ha, pendingAt, hn, hsch])
      (fun r hr => by rw [← Option.some.inj (hrun.symm.trans hr)]) (by simp [dangles, ha])
      (fun hno => by simp [ha] at hno) (fun _ => ?_) fun hno => by simp [ha] at hno
    obtain ⟨hinv, henq⟩ := h.enqueueExisting status ha hn hsch hres hcb he
      (hal.trans hnext) _ rfl
    exact ⟨a, _, hinv, henq, hrun⟩

/-- An enqueue for an fd that has no node, once its `pollfd` is there. -/
theorem Inv.enqueue_absent (h : Inv V s) (heap : DynArray AsyncHeapEntry) {al al₁ : Alloc}
    (hal : s.alloc.Grows al) {event : IoEvent} {hnd : IoHandler} (status : Ptr)
    {wt : WaitType} {place : π} {P : DynArray PollFd}
    (hwt : event.waitType = some wt) (hacc : s.accepts event hnd = true)
    (hp : rbProbe s.asyncHandlers event.fd = some place)
    (hl : load s.asyncHandlers place = some none)
    (habs : lookup s.asyncHandlers event.fd = none)
    (hgrow : s.pollfds.emplaceBack al = (some P, al₁)) :
    EnqueueOutcome V s heap al event hnd status
      (enqueueAt { s.withSlot heap al with pollfds := P, alloc := al₁ } place true event.fd wt hnd
        status) := by
  have hnext₁ : al.Grows al₁ := by simpa [hgrow] using emplaceBack_grows s.pollfds al
  have hPdata := emplaceBack_data hgrow
  have hcb : hnd.callback.isSome = true := by
    simp only [Svc.accepts, Bool.and_eq_true] at hacc
    exact hacc.1.2
  have hfd : fdOf s.asyncHandlers al₁.next = none := by
    refine Option.eq_none_iff_forall_ne_some.mpr fun fd' hfd' => ?_
    have := h.fresh al₁.next ((h.dom _).mpr ⟨fd', (fdOf_iff h.tree).mp hfd'⟩)
    exact this.not_ge (hal.trans hnext₁).next
  obtain hm | hm := malloc_eq al₁
  · refine .refused (.inr (.inr ?_)) (by simp [enqueueOk, dangles, blockFails, obtains, hgrow, hm])
      (by simp) ⟨rfl, ?_, ?_⟩ (enqueueAt_new_noNode hl hm)
    · rw [← hnext₁.ok]
      exact malloc_none hm
    · simp [DynArray.popBack, hPdata, Svc.withSlot]
    · exact hnext₁.trans (.succ al₁)
  have hnext₂ := reserveSlot_grows { al₁ with next := al₁.next + 1 } .zero wt
  rcases hr : reserveSlot { al₁ with next := al₁.next + 1 } .zero wt with ⟨al₂, n, _ | slot⟩
  · -- only an exception event needs a block of its own in a new node
    have hexc : wt = .exception ∧ { al₁ with next := al₁.next + 1 }.malloc.1 = none := by
      cases wt <;> simp only [reserveSlot, reserveRdWr, reserveEx, EventNode.zero] at hr
      · simp at hr
      · simp at hr
      · obtain hm' | hm' := malloc_eq { al₁ with next := al₁.next + 1 } <;> simp [hm'] at hr ⊢
    refine .dangling (by simp [dangles, hacc, hwt, hexc.1, habs, blockFails, hgrow, hm, hexc.2])
      fun r hr' => ?_
    rw [enqueueAt_new_noBlock
      (s := { s.withSlot heap al with pollfds := P, alloc := al₁ }) _ _ _ hl hm hr] at hr'
    obtain ⟨t, hst, rfl⟩ := Option.map_eq_some_iff.mp hr'
    exact dangling_bad h.tree hp habs hfd hst
  · rw [hr] at hnext₂
    have hres := reserveSlot_spec EventNode.wf_zero hr
    have hlen : P.data.length = s.pollfds.data.length + 1 := by simp [hPdata]
    refine .added hwt hacc (view_none habs) (fun r hr' => ?_) ?_
      (fun _ => by simp [obtains, hgrow, hm]) (fun hins => ?_) fun _ hins r hr' => ?_
    · exact enqueueAt_new_code
        (s := { s.withSlot heap al with pollfds := P, alloc := al₁ }) hl hm hr hr'
    · cases wt <;> simp only [reserveSlot, reserveEx, EventNode.zero] at hr
      · simp [dangles, hwt]
      · simp [dangles, hwt]
      · obtain hm' | hm' := malloc_eq { al₁ with next := al₁.next + 1 }
        · simp [hm'] at hr
        · simp [dangles, blockFails, hgrow, hm, hm']
    · obtain ⟨t, ht, hload, hvalid, hlook⟩ := insert_spec h.tree hp habs hfd (hins habs)
      have hrun := enqueueAt_new_some
        (s := { s.withSlot heap al with pollfds := P, alloc := al₁ })
        hnd status hl hm hr hres ht hload rfl hlen
      obtain ⟨hinv, henq⟩ := h.enqueueNew status habs hres hcb
        (hal.trans hnext₁).next (lt_of_lt_of_le (Nat.lt_succ_self _) hnext₂.next)
        ((hal.trans hnext₁).trans ((Alloc.Grows.succ al₁).trans hnext₂)) hvalid hlook
        (P := P.set s.pollfds.data.length ⟨event.fd, enqueueMask wt, 0⟩)
        (by simp [DynArray.set, hPdata]) _ rfl
      exact ⟨al₁.next, _, hinv, henq, hrun⟩
    · obtain ⟨t, ht, hst⟩ := enqueueAt_new_tree
        (s := { s.withSlot heap al with pollfds := P, alloc := al₁ }) hl hm hr hr'
      exact insert_bad h.tree hp habs hfd hins ht hst

/-- An enqueue that leaves a freed node behind. -/
theorem Inv.enqueue_dangling (h : Inv V s) (heap : DynArray AsyncHeapEntry) {al : Alloc}
    {event : IoEvent} {hnd : IoHandler} (status : Ptr) (hd : dangles s al event hnd = true) :
    ∃ (place : π) (a : Addr) (s' : Svc τ), rbProbe s.asyncHandlers event.fd = some place ∧
      al.next ≤ a ∧
      load s.asyncHandlers place = some none ∧
      iosvcEnqueue (s.withSlot heap al) event hnd status =
        (store (free (makeRbnode s.asyncHandlers a event.fd) a) place a).map fun t =>
          (.nomem, none, { s' with asyncHandlers := t, timedEventsHeap := heap }) := by
  simp only [dangles, Bool.and_eq_true, decide_eq_true_eq, Option.isNone_iff_eq_none] at hd
  obtain ⟨⟨⟨hacc, hwt⟩, habs⟩, hblock⟩ := hd
  simp only [accepts, Bool.and_eq_true, decide_eq_true_eq] at hacc
  obtain ⟨⟨hst, hcb⟩, -⟩ := hacc
  obtain ⟨c, hc⟩ := Option.isSome_iff_exists.mp hcb
  obtain ⟨place, hp, hl⟩ := h.probe event.fd
  rw [habs] at hl
  unfold blockFails at hblock
  split at hblock
  next => cases hblock
  next P al₁ hgrow =>
    split at hblock
    next => cases hblock
    next a al₂ hm =>
      have hnext := (emplaceBack_grows s.pollfds al).next
      rw [hgrow] at hnext
      obtain ⟨ha, hal₂⟩ : a = al₁.next ∧ al₂ = { al₁ with next := al₁.next + 1 } := by
        obtain hm' | hm' := malloc_eq al₁ <;> rw [hm'] at hm <;> simp at hm
        exact ⟨hm.1.symm, hm.2.symm⟩
      obtain ⟨al₃, hr⟩ : ∃ al₃, reserveSlot al₂ .zero .exception = (al₃, .zero, none) := by
        obtain hm' | hm' := malloc_eq al₂
        · exact ⟨{ al₂ with next := al₂.next + 1 }, by
            simp [reserveSlot, reserveEx, EventNode.zero, hm']⟩
        · simp [hm'] at hblock
      have hrun := enqueueAt_new_noBlock
        (s := { s.withSlot heap al with pollfds := P, alloc := al₁ }) event.fd hnd status hl hm hr
      refine ⟨place, a, { s with
        alloc := al₃
        nodes := Function.update s.nodes a none
        pollfds := P.popBack }, hp, ha ▸ hnext, hl, ?_⟩
      have hst' : ¬((s.withSlot heap al).status ≠ .ready ∧
          (s.withSlot heap al).status ≠ .running) :=
        fun hn => hst.elim hn.1 hn.2
      have hl' : load (s.withSlot heap al).asyncHandlers place = some none := hl
      have hp' : rbProbe (s.withSlot heap al).asyncHandlers event.fd = some place := hp
      have hgrow' : (s.withSlot heap al).pollfds.emplaceBack (s.withSlot heap al).alloc =
        (some P, al₁) := hgrow
      rw [iosvcEnqueue, if_neg hst']
      simp only [hc, hwt, hp', hl', hgrow', bind, Option.bind_some]
      exact hrun

/-- **The outcomes of an enqueue** in a consistent state. -/
theorem Inv.enqueue_cases (h : Inv V s) (heap : DynArray AsyncHeapEntry) {al : Alloc}
    (hal : s.alloc.Grows al) (event : IoEvent) (hnd : IoHandler) (status : Ptr) :
    EnqueueOutcome V s heap al event hnd status
      (iosvcEnqueue (s.withSlot heap al) event hnd status) := by
  by_cases hst : s.status ≠ .ready ∧ s.status ≠ .running
  · have hacc : s.accepts event hnd = false := by simp [Svc.accepts, hst.1, hst.2]
    exact .refused (.inl hacc) (by simp [enqueueOk, dangles, hacc]) (by simp) ⟨rfl, rfl, .refl _⟩
      (if_pos hst)
  have hst' : s.status = .ready ∨ s.status = .running := by
    rw [not_and_or, not_not, not_not] at hst
    exact hst
  rw [iosvcEnqueue, if_neg (show ¬((s.withSlot heap al).status ≠ .ready ∧
    (s.withSlot heap al).status ≠ .running) from hst)]
  obtain ⟨fd, wt⟩ := event
  obtain ⟨cb, ctx⟩ := hnd
  cases cb with
  | none =>
      exact .refused (.inl (by simp [Svc.accepts])) (by simp [enqueueOk, dangles, Svc.accepts])
        (by simp) ⟨rfl, rfl, .refl _⟩ rfl
  | some c =>
      cases wt with
      | none =>
          exact .refused (.inl (by simp [Svc.accepts])) (by simp [enqueueOk, dangles, Svc.accepts])
            (by simp) ⟨rfl, rfl, .refl _⟩ rfl
      | some wt =>
          have hacc : s.accepts ⟨fd, some wt⟩ ⟨some c, ctx⟩ = true := by
            simp [Svc.accepts, hst']
          obtain ⟨place, hp, hl⟩ := h.probe fd
          have hp' : rbProbe (s.withSlot heap al).asyncHandlers fd = some place := hp
          simp only [hp', bind, Option.bind_some]
          cases ha : lookup s.asyncHandlers fd with
          | some a =>
              rw [ha] at hl
              obtain ⟨n, hn⟩ := h.node_of_lookup ha
              have hl' : load (s.withSlot heap al).asyncHandlers place = some (some a) := hl
              have hn' : (s.withSlot heap al).nodes a = some n := hn
              simp only [hl', hn', Option.bind_some]
              exact h.enqueue_present heap hal status rfl hacc hl ha hn
          | none =>
              rw [ha] at hl
              have hl' : load (s.withSlot heap al).asyncHandlers place = some none := hl
              simp only [hl', Option.bind_some]
              have hnext := emplaceBack_grows s.pollfds al
              rcases hgrow : s.pollfds.emplaceBack al with ⟨_ | P, al₁⟩
              · rw [show (s.withSlot heap al).pollfds.emplaceBack (s.withSlot heap al).alloc = _ from
                  hgrow]
                rw [hgrow] at hnext
                have href : Refused (s.withSlot heap al) { s.withSlot heap al with alloc := al₁ } :=
                  ⟨rfl, rfl, hnext⟩
                exact .refused (.inr (.inr (emplaceBack_none hgrow)))
                  (by simp [enqueueOk, dangles, blockFails, obtains, hgrow]) (by simp) href rfl
              · rw [show (s.withSlot heap al).pollfds.emplaceBack (s.withSlot heap al).alloc = _ from
                  hgrow]
                exact h.enqueue_absent heap hal status rfl hacc hp hl ha hgrow

/-! ### Adding a timer -/

/-- The state in which the heap entry of an event, at the end of the heap, is sifted up. -/
def withTimer (s : Svc τ) (heap : DynArray AsyncHeapEntry) (ent : AsyncHeapEntry) : Svc τ :=
  { s with timedEventsHeap := { heap with data := s.timed ++ [ent] } }

/-- **Adding a timer** to a pending event that has none. -/
theorem Inv.addTimer (h : Inv V s) (heap : DynArray AsyncHeapEntry) {fd : ℤ} {a : Addr}
    {wt : WaitType} {d : EventData} (ent : AsyncHeapEntry)
    (ha : lookup s.asyncHandlers fd = some a) (hd : pendingAt s.nodes a wt = some d)
    (hidx : d.ddlHeapIdx < 0) (hent : ent.ioOpData = a ∧ ent.eventType = wt) :
    ∃ s₁ s', (withTimer s heap ent).setDdlHeapIdx a wt s.timed.length = some s₁ ∧
      siftUpTimed s₁ s.timed.length = some s' ∧ Inv V s' ∧
      s' = { s with nodes := s'.nodes, timedEventsHeap := s'.timedEventsHeap } ∧
      ∀ fd' wt', s'.view fd' wt' =
        if fd' = fd ∧ wt' = wt then some (d.pendingWith (some ent)) else s.view fd' wt' := by
  obtain ⟨-, N, hset, hp, n, slot, hn, hslot, hdr, hN⟩ :=
    setDdlHeapIdx_spec (s := withTimer s heap ent) hd (s.timed.length : ℕ)
  have hn₀ : s.nodes a = some n := hn
  have hl : EntriesLinked N (s.timed ++ [ent]) := by
    obtain ⟨rfl, rfl⟩ := hent
    exact h.linked.concat (h.linked.untimed hd hidx) hp
  obtain ⟨s', e', hl', hr', ho', hperm⟩ :=
    siftUpTimed_spec (s := { withTimer s heap ent with nodes := N }) hl
      (show s.timed.length < _ by simp [withTimer, timed]) (h.heap.append ent)
  have hmem : ∀ e, e ∈ s'.timed ↔ e ∈ s.timed ∨ e = ent := fun e => by
    rw [hperm.mem_iff]
    simp [withTimer, timed]
  have hev : SameEvents N s'.nodes := hr'.events
  -- what is pending has not changed but for the position of the event
  have hpend : ∀ b w, (pendingAt s'.nodes b w).map EventData.forget =
      if b = a ∧ w = wt then some { d with ddlHeapIdx := (s.timed.length : ℕ) }.forget
      else (pendingAt s.nodes b w).map EventData.forget := by
    intro b w
    rw [hev.pendingAt b w, hp]
    split <;> rfl
  have hsame : s' = { s with nodes := s'.nodes, timedEventsHeap := s'.timedEventsHeap } := by
    conv_lhs => rw [hr'.same]
    simp only [retime, withTimer, timed, Svc.mk.injEq, true_and, and_true]
    rw [hr'.same]
    rfl
  have hna : N a = some (n.assign { d with ddlHeapIdx := (s.timed.length : ℕ) } slot) := by
    rw [hN, Function.update_self]
  obtain ⟨n', hn', hf'⟩ : ∃ n', s'.nodes a = some n' ∧
      n'.forget = (n.assign { d with ddlHeapIdx := (s.timed.length : ℕ) } slot).forget := by
    have := hev a
    rw [hna, Option.map_some] at this
    exact Option.map_eq_some_iff.mp this
  have hmask : n'.mask = n.mask := by
    have hpn : n.pending wt = some d := by simpa [pendingAt, hn₀] using hd
    rw [EventNode.mask_congr hf', EventNode.mask_assign_idx hslot hdr hpn]
  obtain ⟨e, he, -, heev, hne⟩ := h.entry fd a n ha hn₀
  refine ⟨_, s', hset, e', h.setNode ha hn₀ (by rw [hsame]) (by rw [hsame]) hn' ?_ ?_
    (fun b hb => ?_) (fun i => ?_) ho' hl' (fun b w d' hd' ht => ?_) (fun _ => id) (fun hfd => ?_),
    hsame, fun fd' wt' => ?_⟩
  · rw [← EventNode.wf_forget, hf', EventNode.wf_forget]
    exact (h.wf a n hn).assign hslot _
  · simpa using congrArg EventNode.pollfdIdx hf'
  · rw [hev b, hN, Function.update_of_ne hb]
    rfl
  · rw [hsame]
    by_cases hi : i = n.pollfdIdx
    · rw [if_pos hi, hi, he, hmask, ← heev]
      rfl
    · rw [if_neg hi]
  · by_cases hbw : b = a ∧ w = wt
    · exact ⟨ent, (hmem ent).mpr (.inr rfl), hent.1.trans hbw.1.symm, hent.2.trans hbw.2.symm⟩
    · have hc := hpend b w
      rw [hd', if_neg hbw, Option.map_some, eq_comm, Option.map_eq_some_iff] at hc
      obtain ⟨d₀, hd₀, hf₀⟩ := hc
      have ht₀ : 0 ≤ d₀.ddlHeapIdx := by
        rw [← EventData.ddlHeapIdx_forget_nonneg, hf₀, EventData.ddlHeapIdx_forget_nonneg]
        exact ht
      obtain ⟨e₀, he₀, hb₀, hw₀⟩ := h.timers b w d₀ hd₀ ht₀
      exact ⟨e₀, (hmem e₀).mpr (.inl he₀), hb₀, hw₀⟩
  · rw [hmask, ← heev]
    exact hne hfd
  · have htree : s'.asyncHandlers = s.asyncHandlers := by rw [hsame]
    cases hb : lookup s.asyncHandlers fd' with
    | none =>
        rw [if_neg, view_none hb, view_none (by rw [htree, hb])]
        rintro ⟨rfl, -⟩
        rw [ha] at hb
        cases hb
    | some b =>
        rw [view_of_lookup (htree ▸ hb), view_of_lookup hb]
        simp only [h.fd_eq_iff ha hb]
        by_cases hbw : b = a ∧ wt' = wt
        · have hc := hpend b wt'
          rw [if_pos hbw, Option.map_eq_some_iff] at hc
          obtain ⟨d', hd', hf₀⟩ := hc
          have hent' : entryOf s'.timed b wt' = some ent :=
            hl'.entryOf_eq.mpr ⟨(hmem ent).mpr (.inr rfl), hent.1.trans hbw.1.symm,
              hent.2.trans hbw.2.symm⟩
          have h₁ : d'.handler = d.handler := by simpa using congrArg EventData.handler hf₀
          have h₂ : d'.status = d.status := by simpa using congrArg EventData.status hf₀
          rw [if_pos hbw, hd', hent', Option.map_some]
          simp [EventData.pendingWith, h₁, h₂]
        · rw [if_neg hbw]
          refine view_entry_congr ((hpend b wt').trans (if_neg hbw)) ?_
          refine entryOf_congr h.linked hl' fun e₀ hb₀ hw₀ => ?_
          rw [hmem e₀]
          refine or_iff_left fun hc => hbw ?_
          exact ⟨hb₀.symm.trans (hc ▸ hent.1), hw₀.symm.trans (hc ▸ hent.2)⟩

/-- An enqueue that is not good leaves the tree out of order. -/
theorem Inv.enqueue_bad (h : Inv V s) (heap : DynArray AsyncHeapEntry) {al : Alloc}
    (hal : s.alloc.Grows al) {event : IoEvent} {hnd : IoHandler} {status : Ptr}
    (hok : enqueueOk s al event hnd = false) {r : IoErrcode × Ptr × Svc τ}
    (hrun : iosvcEnqueue (s.withSlot heap al) event hnd status = some r) :
    ¬ Valid r.2.2.asyncHandlers := by
  cases h.enqueue_cases heap hal event hnd status with
  | refused hwhy hgood => simp [hok] at hgood
  | dangling hd hbad => exact hbad r hrun
  | added hwt hacc hview hcode hfresh hnew hadd hbad =>
      cases ha : lookup s.asyncHandlers event.fd with
      | some a => simp [enqueueOk, hfresh, ha] at hok
      | none => exact hbad ha (by simpa [enqueueOk, hfresh, hacc, ha, hnew ha] using hok) r hrun

/-! ### The public calls -/

omit [LawfulFdTree τ π] in
/-- `enqueueOk` for the enqueue of `iosvc_sched_timeout`, which comes after the heap slot. -/
def schedTimeoutOk (s : Svc τ) (event : IoEvent) (hnd : IoHandler) : Bool :=
  match s.timedEventsHeap.emplaceBack s.alloc with
  | (none, _) => true
  | (some _, al) => enqueueOk s al event hnd

/-- Nothing but storage has changed: the contents of the queue, the heaps and the `pollfd`s,
the tree and the events of its nodes are as before. -/
structure Unchanged (s s' : Svc τ) : Prop where
  same : s' = { s with
    alloc := s'.alloc
    pollfds := s'.pollfds
    timedEventsHeap := s'.timedEventsHeap }
  polls : s'.pollfds.data = s.pollfds.data
  timed : s'.timed = s.timed
  alloc : s.alloc.Grows s'.alloc

/-- A refused call has changed nothing but storage. -/
theorem Refused.unchanged {s' : Svc τ} (h : Refused s s') : Unchanged s s' :=
  ⟨by rw [h.same], h.polls, by rw [h.same]; rfl, h.alloc⟩

/-- A change of nothing but storage keeps the service consistent. -/
theorem Inv.unchanged (h : Inv V s) {s' : Svc τ} (hu : Unchanged s s') : Inv V s' := by
  have hs := hu.same
  exact h.frame (by rw [hs]) (by rw [hs]) hu.polls hu.timed hu.alloc.next

/-- What an accepted scheduling call does; `timer` is the `milliseconds` pointer and the
value found there. -/
structure Scheduled (s s' : Svc τ) (fd : ℤ) (wt : WaitType) (hnd : IoHandler) (status : Ptr)
    (timer : Option (Addr × ℤ)) : Prop where
  /-- the rest of the service is untouched -/
  same : s' = { s with
    asyncHandlers := s'.asyncHandlers
    nodes := s'.nodes
    pollfds := s'.pollfds
    alloc := s'.alloc
    timedEventsHeap := s'.timedEventsHeap
    log := .accepted (.event fd wt hnd timer) s.clock :: s.log }
  alloc : s.alloc.Grows s'.alloc
  /-- the fd has a node, the one it had if there was one, and no other fd is touched -/
  lookup : ∃ a, lookup s'.asyncHandlers = Function.update (lookup s.asyncHandlers) fd (some a) ∧
    ∀ b, FdTree.lookup s.asyncHandlers fd = some b → b = a
  /-- the event was not pending -/
  vacant : s.view fd wt = none
  /-- the event is there, and no other is touched -/
  view : ∀ fd' wt', s'.view fd' wt' = if fd' = fd ∧ wt' = wt
    then some ⟨hnd, status, timer.map fun t => (s.clock + t.2, t.1)⟩ else s.view fd' wt'
  /-- the `pollfd`s stay where they are, and a new one has nothing to report -/
  polls : ∃ tail, s'.pollfds.data.map (fun e => (e.fd, e.revents)) =
    s.pollfds.data.map (fun e => (e.fd, e.revents)) ++ tail ∧ ∀ x ∈ tail, x.2 = 0

/-- What is pending after an enqueue. -/
theorem Enqueued.view {s' : Svc τ} {fd : ℤ} {wt : WaitType} {hnd : IoHandler} {status : Ptr}
    {a : Addr} (he : Enqueued s s' fd wt hnd status a) (h : Inv V s) (h' : Inv V s')
    (fd' : ℤ) (wt' : WaitType) :
    s'.view fd' wt' = if fd' = fd ∧ wt' = wt then some ⟨hnd, status, none⟩
      else s.view fd' wt' := by
  have htimed : s'.timed = s.timed := by rw [he.same]; rfl
  by_cases hfd : fd' = fd
  · subst hfd
    have hlook : FdTree.lookup s'.asyncHandlers fd' = some a := by
      rw [he.lookup, Function.update_self]
    rw [view_of_lookup hlook, he.pending, htimed]
    by_cases hw : wt' = wt
    · subst hw
      have hent : entryOf s.timed a wt' = none := by
        have hd := he.pending a wt'
        rw [if_pos ⟨rfl, rfl⟩] at hd
        rw [← htimed, h'.linked.entryOf_none]
        exact h'.linked.untimed hd (by simp [newEvent])
      simp [hent, newEvent, EventData.pendingWith]
    · rw [if_neg fun hc => hw hc.2, if_neg fun hc => hw hc.2]
      rcases he.node with hl | ⟨hl, hfresh⟩
      · rw [view_of_lookup hl]
      · simp [view_none hl, pendingAt, hfresh]
  · rw [if_neg fun hc => hfd hc.1]
    have hlook : FdTree.lookup s'.asyncHandlers fd' = FdTree.lookup s.asyncHandlers fd' := by
      rw [he.lookup, Function.update_of_ne hfd]
    cases hb : FdTree.lookup s.asyncHandlers fd' with
    | none => rw [view_none hb, view_none (hlook.trans hb)]
    | some b =>
        have hba : b ≠ a := by
          rintro rfl
          rcases he.node with hl | ⟨-, hfresh⟩
          · exact hfd (h.lookup_inj hb hl)
          · simpa [hfresh] using (h.dom b).mpr ⟨fd', hb⟩
        rw [view_of_lookup hb, view_of_lookup (hlook.trans hb), he.pending,
          if_neg fun hc => hba hc.1, htimed]

omit [LawfulFdTree τ π] in
/-- The node of an fd stays its node. -/
theorem Enqueued.eq_of_lookup {s' : Svc τ} {fd : ℤ} {wt : WaitType} {hnd : IoHandler}
    {status : Ptr} {a b : Addr} (he : Enqueued s s' fd wt hnd status a)
    (hb : FdTree.lookup s.asyncHandlers fd = some b) : b = a := by
  rcases he.node with hl | ⟨hl, -⟩
  · exact Option.some.inj (hb.symm.trans hl)
  · rw [hl] at hb
    cases hb

/-- **`iosvc_sched`** returns, and either adds exactly the requested event or, with an error
code, leaves everything as it was. -/
theorem Inv.sched (h : Inv V s) {event : IoEvent} {hnd : IoHandler} (status : Ptr)
    (hok : enqueueOk s s.alloc event hnd = true) :
    ∃ code s', iosvcSched s event hnd status = some (code, s') ∧ Inv V s' ∧
      (code ≠ .ok ∧ Unchanged s s' ∧ Excused s s.alloc event hnd ∨
        code = .ok ∧ ∃ wt, event.waitType = some wt ∧
          Scheduled s s' event.fd wt hnd status none) := by
  simp only [enqueueOk, Bool.and_eq_true, Bool.not_eq_true', Bool.or_eq_true] at hok
  cases h.enqueue_cases s.timedEventsHeap (.refl _) event hnd status with
  | refused hwhy hgood hcode hs hres =>
      refine ⟨_, _, ?_, h.unchanged hs.unchanged, .inl ⟨hcode, hs.unchanged, hwhy⟩⟩
      rw [iosvcSched, show iosvcEnqueue s event hnd status = _ from hres]
      simp only [bind, Option.bind_some]
      split
      · exact absurd rfl hcode
      · rfl
  | dangling hd => simp [hok.1] at hd
  | @added wt hwt hacc hview hcode hfresh hnew hadd =>
      obtain ⟨a, s', hinv, he, hres⟩ := hadd fun hn => by simpa [hacc, hn, hnew hn] using hok.2
      have hheap : s'.timedEventsHeap = s.timedEventsHeap := by rw [he.same]
      have hres' : iosvcEnqueue s event hnd status = some (.ok, some a, s') := by
        rw [show iosvcEnqueue s event hnd status = _ from hres, ← hheap]
      refine ⟨.ok, s'.note (.accepted (.event event.fd wt hnd none) s'.clock), ?_,
        hinv.frame rfl rfl rfl rfl le_rfl, .inr ⟨rfl, wt, hwt, ?_, he.alloc,
          ⟨a, he.lookup, fun b => he.eq_of_lookup⟩, hview, he.view h hinv, he.polls⟩⟩
      · rw [iosvcSched, hres']
        simp only [bind, Option.bind_some, hwt]
      · rw [he.same]
        rfl

/-- **`iosvc_sched_timeout`** returns, and either adds exactly the requested event with its
deadline or, with an error code, leaves everything as it was. -/
theorem Inv.schedTimeout (h : Inv V s) {event : IoEvent} {hnd : IoHandler} (status : Ptr)
    (ms : Addr) (hok : schedTimeoutOk s event hnd = true) :
    ∃ code s', iosvcSchedTimeout s event hnd status ms = some (code, s') ∧ Inv V s' ∧
      (code ≠ .ok ∧ Unchanged s s' ∧ Excused s s.alloc event hnd ∨
        code = .ok ∧ ∃ wt, event.waitType = some wt ∧
          Scheduled s s' event.fd wt hnd status (some (ms, (s.ints ms).toInt))) := by
  have hnext := emplaceBack_grows s.timedEventsHeap s.alloc
  unfold iosvcSchedTimeout
  rcases hgrow : s.timedEventsHeap.emplaceBack s.alloc with ⟨_ | heap, al⟩
  · rw [hgrow] at hnext
    have hu : Unchanged s { s with alloc := al } := ⟨rfl, rfl, rfl, hnext⟩
    exact ⟨.nomem, _, rfl, h.unchanged hu,
      .inl ⟨by simp, hu, .inr (.inr (emplaceBack_none hgrow))⟩⟩
  rw [hgrow] at hnext
  have hdata : heap.data = s.timed ++ [default] := emplaceBack_data hgrow
  simp only [schedTimeoutOk, hgrow, enqueueOk, Bool.and_eq_true, Bool.not_eq_true',
    Bool.or_eq_true] at hok
  cases h.enqueue_cases heap hnext event hnd status with
  | @refused code s' hwhy hgood hcode hs hres =>
      have hu : Unchanged s { s' with timedEventsHeap := s'.timedEventsHeap.popBack } := by
        refine ⟨by rw [hs.same]; rfl, hs.polls, ?_, hnext.trans hs.alloc⟩
        rw [hs.same]
        show heap.data.dropLast = s.timed
        simp [hdata]
      have hwhy' : Excused s s.alloc event hnd := by
        rwa [Excused, ← hnext.ok]
      refine ⟨code, _, ?_, h.unchanged hu, .inl ⟨hcode, hu, hwhy'⟩⟩
      simp only [show iosvcEnqueue { s with timedEventsHeap := heap, alloc := al } event hnd status
        = _ from hres, bind, Option.bind_some]
  | dangling hd => simp [hok.1] at hd
  | @added wt hwt hacc hview hcode hfresh hnew hadd =>
      obtain ⟨a, s₁, hinv, he, hres⟩ := hadd fun hn => by simpa [hacc, hn, hnew hn] using hok.2
      have hlook : FdTree.lookup s₁.asyncHandlers event.fd = some a := by
        rw [he.lookup, Function.update_self]
      have htimed : s₁.timed = s.timed := by rw [he.same]; rfl
      have hclock : s₁.clock = s.clock := by rw [he.same]
      obtain ⟨s₂, s₃, e₂, e₃, hinv₃, hsame₃, hview₃⟩ := hinv.addTimer heap
        ⟨s.clock + (s.ints ms).toInt, ms, a, wt⟩ hlook
        ((he.pending a wt).trans (if_pos ⟨rfl, rfl⟩)) (by simp [newEvent]) ⟨rfl, rfl⟩
      have hset : ({ s₁ with timedEventsHeap := heap }.setTimed (heap.data.set
          (heap.data.length - 1) ⟨s.clock + (s.ints ms).toInt, ms, a, wt⟩)) =
          withTimer s₁ heap ⟨s.clock + (s.ints ms).toInt, ms, a, wt⟩ := by
        simp [setTimed, withTimer, hdata, htimed]
      have hlen : heap.data.length - 1 = s₁.timed.length := by simp [hdata, htimed]
      have hclock₃ : s₃.clock = s.clock := by rw [hsame₃, hclock]
      refine ⟨.ok, s₃.note (.accepted
        (.event event.fd wt hnd (some (ms, (s.ints ms).toInt))) s₃.clock), ?_,
        hinv₃.frame rfl rfl rfl rfl le_rfl, .inr ⟨rfl, wt, hwt, ?_, ?_,
          ⟨a, ?_, fun b => he.eq_of_lookup⟩, hview, fun fd' wt' => ?_, ?_⟩⟩
      · simp only [show iosvcEnqueue { s with timedEventsHeap := heap, alloc := al } event hnd
          status = _ from hres, bind, Option.bind_some, hwt, currentTime]
        rw [show ({ s₁ with timedEventsHeap := heap } : Svc τ).timed = heap.data from rfl, hset,
          hlen, e₂]
        simp only [Option.bind_some, e₃]
      · rw [hclock₃, hsame₃, he.same]
        rfl
      · rw [hsame₃]
        exact he.alloc
      · rw [hsame₃]
        exact he.lookup
      · refine (hview₃ fd' wt').trans ?_
        rw [he.view h hinv]
        by_cases hc : fd' = event.fd ∧ wt' = wt
        · rw [if_pos hc, if_pos hc]
          rfl
        · rw [if_neg hc, if_neg hc, if_neg hc]
      · rw [hsame₃]
        exact he.polls

/-- **`iosvc_sched`, exactly**: the call returns and leaves a consistent state if and only if
its enqueue is good. -/
theorem Inv.sched_iff (h : Inv V s) (event : IoEvent) (hnd : IoHandler) (status : Ptr) :
    (∃ code s', iosvcSched s event hnd status = some (code, s') ∧ Inv V s') ↔
      enqueueOk s s.alloc event hnd = true := by
  constructor
  · rintro ⟨code, s', hrun, hinv⟩
    by_contra hok
    obtain ⟨⟨code', p, s₁⟩, hr, hrun⟩ := Option.bind_eq_some_iff.mp hrun
    refine h.enqueue_bad s.timedEventsHeap (.refl _) (by simpa using hok) hr ?_
    have htree : s'.asyncHandlers = s₁.asyncHandlers := by
      simp only at hrun
      split at hrun <;> obtain ⟨-, rfl⟩ := Prod.mk.inj (Option.some.inj hrun) <;> rfl
    exact htree ▸ hinv.tree
  · intro hok
    obtain ⟨code, s', hrun, hinv, -⟩ := h.sched status hok
    exact ⟨code, s', hrun, hinv⟩

/-- **`iosvc_sched_timeout`, exactly.** -/
theorem Inv.schedTimeout_iff (h : Inv V s) (event : IoEvent) (hnd : IoHandler) (status : Ptr)
    (ms : Addr) :
    (∃ code s', iosvcSchedTimeout s event hnd status ms = some (code, s') ∧ Inv V s') ↔
      schedTimeoutOk s event hnd = true := by
  constructor
  · rintro ⟨code, s', hrun, hinv⟩
    by_contra hok
    have hnext := emplaceBack_grows s.timedEventsHeap s.alloc
    unfold iosvcSchedTimeout at hrun
    rcases hgrow : s.timedEventsHeap.emplaceBack s.alloc with ⟨_ | heap, al⟩
    · simp [schedTimeoutOk, hgrow] at hok
    rw [hgrow] at hnext hrun
    obtain ⟨⟨code', p, s₁⟩, hr, hrun⟩ := Option.bind_eq_some_iff.mp hrun
    refine h.enqueue_bad heap hnext (by simpa [schedTimeoutOk, hgrow] using hok) hr ?_
    have htree : s'.asyncHandlers = s₁.asyncHandlers := by
      simp only at hrun
      split at hrun
      · obtain ⟨s₂, h₂, hrun⟩ := Option.bind_eq_some_iff.mp hrun
        obtain ⟨s₃, h₃, hrun⟩ := Option.bind_eq_some_iff.mp hrun
        obtain ⟨-, rfl⟩ := Prod.mk.inj (Option.some.inj hrun)
        have h₂ := congrArg Svc.asyncHandlers (setDdlHeapIdx_same h₂)
        have h₃ := congrArg Svc.asyncHandlers (siftUpTimed_same h₃)
        exact h₃.trans h₂
      · obtain ⟨-, rfl⟩ := Prod.mk.inj (Option.some.inj hrun)
        rfl
    exact htree ▸ hinv.tree
  · intro hok
    obtain ⟨code, s', hrun, hinv, -⟩ := h.schedTimeout status ms hok
    exact ⟨code, s', hrun, hinv⟩

end

end IoEngine
