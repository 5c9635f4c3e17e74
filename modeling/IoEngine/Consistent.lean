import IoEngine.Timers

/-!
# Consistent Service States

The service keeps three structures about the same fds in step: the tree of nodes, the
array of `pollfd`s that is handed to `poll`, and the heap of timed events. `Inv` says what
consistency between them means. While an event is being completed, between `iosvc_dequeue`
and `ioevt_cleanup_evt`, the node of its fd may be left without a pending event; `Inv V`
allows this for the fds in `V`, and `Inv []` is the state between completions.

Above it stands the abstract view of a service: a finite map from fd and wait type to the
pending event (`Svc.view`).
-/

open BinHeap

namespace IoEngine

open FdTree Svc LawfulFdTree

variable {τ π : Type} [FdTree τ π]

/-! ### The abstract view -/

/-- A pending event: its handler, where its status goes, and, for a timed event, its
deadline and where its remaining time goes. -/
structure Pending where
  handler : IoHandler
  status : Ptr
  timer : Option (ℤ × Addr)
  deriving DecidableEq

/-- The heap entry of an event. -/
def entryOf (l : List AsyncHeapEntry) (a : Addr) (wt : WaitType) : Option AsyncHeapEntry :=
  l.find? fun e => e.ioOpData = a ∧ e.eventType = wt

/-- The pending event that an event's data and its heap entry stand for. -/
def EventData.pendingWith (d : EventData) (ent : Option AsyncHeapEntry) : Pending :=
  ⟨d.handler, d.status, ent.map fun e => (e.deadline, e.remaining)⟩

/-- **The service as a finite map** from fd and wait type to the pending event. -/
def Svc.view (s : Svc τ) (fd : ℤ) (wt : WaitType) : Option Pending :=
  (lookup s.asyncHandlers fd).bind fun a =>
    (pendingAt s.nodes a wt).map fun d => d.pendingWith (entryOf s.timed a wt)

/-! ### Consistency -/

/-- The poll bits of the events that are pending in a node. -/
def EventNode.mask (n : EventNode) : PollMask :=
  requested fun wt => (n.pending wt).isSome

section

variable [LawfulFdTree τ π]

/-- **Consistency of a service state**, where the fds in `V` may be without a pending
event. -/
structure Inv (V : List ℤ) (s : Svc τ) : Prop where
  /-- the tree is in order -/
  tree : Valid s.asyncHandlers
  /-- the nodes with storage are those of the tree -/
  dom : ∀ a, (s.nodes a).isSome ↔ ∃ fd, lookup s.asyncHandlers fd = some a
  /-- addresses still to be handed out are unused -/
  fresh : ∀ a, (s.nodes a).isSome → a < s.alloc.next
  /-- the event storage is well-formed -/
  wf : ∀ a n, s.nodes a = some n → n.Wf
  /-- every node has its `pollfd`, with the bits of its pending events -/
  entry : ∀ fd a n, lookup s.asyncHandlers fd = some a → s.nodes a = some n →
    ∃ e, s.pollfds.data[n.pollfdIdx]? = some e ∧ e.fd = fd ∧ e.events = n.mask ∧
      (fd ∉ V → e.events ≠ 0)
  /-- every `pollfd` has its node -/
  back : ∀ (i : ℕ) e, s.pollfds.data[i]? = some e →
    ∃ a n, lookup s.asyncHandlers e.fd = some a ∧ s.nodes a = some n ∧ n.pollfdIdx = i
  /-- the timed events are in heap order -/
  heap : Ordered (fun x y => asyncHpEntLt x y) s.timed
  /-- every heap entry belongs to a pending event that knows its position -/
  linked : EntriesLinked s.nodes s.timed
  /-- every timed event has its heap entry -/
  timers : ∀ a wt d, pendingAt s.nodes a wt = some d → 0 ≤ d.ddlHeapIdx →
    ∃ e ∈ s.timed, e.ioOpData = a ∧ e.eventType = wt

end

/-! ### Reading the heap -/

/-- An entry of the heap is found under its event. -/
theorem EntriesLinked.entryOf_eq {N : Addr → Option EventNode} {l : List AsyncHeapEntry}
    (h : EntriesLinked N l) {a : Addr} {wt : WaitType} {e : AsyncHeapEntry} :
    entryOf l a wt = some e ↔ e ∈ l ∧ e.ioOpData = a ∧ e.eventType = wt := by
  constructor
  · intro he
    have hp := List.find?_some he
    simp only [Bool.decide_and, Bool.and_eq_true, decide_eq_true_eq] at hp
    exact ⟨List.mem_of_find?_eq_some he, hp⟩
  · rintro ⟨hm, ha, hw⟩
    obtain ⟨e', he'⟩ := Option.isSome_iff_exists.mp
      (List.find?_isSome (p := fun e => decide (e.ioOpData = a ∧ e.eventType = wt)) |>.mpr
        ⟨e, hm, by simp [ha, hw]⟩)
    have hp := List.find?_some he'
    simp only [Bool.decide_and, Bool.and_eq_true, decide_eq_true_eq] at hp
    obtain ⟨i, hi⟩ := List.mem_iff_getElem?.mp hm
    obtain ⟨j, hj⟩ := List.mem_iff_getElem?.mp (List.mem_of_find?_eq_some he')
    have hij := h.unique hi hj (ha.trans hp.1.symm) (hw.trans hp.2.symm)
    rw [hij, hj] at hi
    rw [entryOf, he', hi]

/-- An event has no entry if none of the heap is for it. -/
theorem EntriesLinked.entryOf_none {N : Addr → Option EventNode} {l : List AsyncHeapEntry}
    (h : EntriesLinked N l) {a : Addr} {wt : WaitType} :
    entryOf l a wt = none ↔ ∀ e ∈ l, ¬(e.ioOpData = a ∧ e.eventType = wt) := by
  rw [Option.eq_none_iff_forall_not_mem]
  constructor
  · exact fun hn e he hc => hn e (h.entryOf_eq.mpr ⟨he, hc⟩)
  · exact fun hn e he => hn e (h.entryOf_eq.mp he).1 (h.entryOf_eq.mp he).2

/-- Two heaps in step with their events that hold the same entries of one event. -/
theorem entryOf_congr {N N' : Addr → Option EventNode} {l l' : List AsyncHeapEntry}
    (h : EntriesLinked N l) (h' : EntriesLinked N' l') {a : Addr} {wt : WaitType}
    (hmem : ∀ e, e.ioOpData = a → e.eventType = wt → (e ∈ l' ↔ e ∈ l)) :
    entryOf l' a wt = entryOf l a wt := by
  ext e
  rw [h.entryOf_eq, h'.entryOf_eq]
  constructor
  · rintro ⟨hm, ha, hw⟩
    exact ⟨(hmem e ha hw).mp hm, ha, hw⟩
  · rintro ⟨hm, ha, hw⟩
    exact ⟨(hmem e ha hw).mpr hm, ha, hw⟩

/-! ### Reading the view -/

/-- The view of a descriptor is what is pending in its node. -/
theorem view_of_lookup {s : Svc τ} {fd : ℤ} {a : Addr} {wt : WaitType}
    (ha : lookup s.asyncHandlers fd = some a) :
    s.view fd wt = (pendingAt s.nodes a wt).map fun d => d.pendingWith (entryOf s.timed a wt) := by
  simp [view, ha]

/-- Nothing is seen of a descriptor without a node. -/
theorem view_none {s : Svc τ} {fd : ℤ} {wt : WaitType}
    (ha : lookup s.asyncHandlers fd = none) : s.view fd wt = none := by
  simp [view, ha]

/-- What is pending for an fd is pending in its node. -/
theorem view_isSome {s : Svc τ} {fd : ℤ} {a : Addr} {n : EventNode} {wt : WaitType}
    (ha : lookup s.asyncHandlers fd = some a) (hn : s.nodes a = some n) :
    (s.view fd wt).isSome = (n.pending wt).isSome := by
  simp [view_of_lookup ha, pendingAt, hn]

/-- The pending event depends on the data of the event only up to its position. -/
theorem view_entry_congr {N N' : Addr → Option EventNode} {a : Addr} {wt : WaitType}
    {o o' : Option AsyncHeapEntry}
    (h : (pendingAt N' a wt).map EventData.forget = (pendingAt N a wt).map EventData.forget)
    (ho : o' = o) :
    (pendingAt N' a wt).map (fun d => d.pendingWith o') =
      (pendingAt N a wt).map (fun d => d.pendingWith o) := by
  have hf : ∀ p : Option EventData, p.map (fun d => d.pendingWith o) =
      (p.map EventData.forget).map (fun d => d.pendingWith o) := by
    rintro (_ | d) <;> simp [EventData.pendingWith]
  rw [ho, hf, h, ← hf]

/-- The view is about the tree, the event storage and the heap only. -/
theorem view_frame {s s' : Svc τ} (htree : s'.asyncHandlers = s.asyncHandlers)
    (hnodes : s'.nodes = s.nodes) (htimed : s'.timed = s.timed) : s'.view = s.view := by
  funext fd wt
  simp only [view, htree, hnodes, htimed]

/-! ### Facts about consistent states -/

/-- Nodes that differ only in positions request the same bits. -/
theorem EventNode.mask_congr {n n' : EventNode} (h : n'.forget = n.forget) :
    n'.mask = n.mask := by
  have hp : ∀ wt, (n'.pending wt).isSome = (n.pending wt).isSome := fun wt => by
    have := congrArg (fun k => (k.pending wt).isSome) h
    simpa [EventNode.pending_forget] using this
  simp [EventNode.mask, hp]

/-- The position of a pending event does not change what is requested. -/
theorem EventNode.mask_assign_idx {n : EventNode} {wt : WaitType} {slot : EvtSlot} {d : EventData}
    (hslot : n.getEvtData wt = some slot) (hdr : n.deref slot = some d)
    (hd : n.pending wt = some d) (k : ℤ) :
    (n.assign { d with ddlHeapIdx := k } slot).mask = n.mask := by
  have hlive : d.live = true := (EventNode.pending_eq_some.mp hd).1
  rw [EventNode.mask, EventNode.mask,
    EventNode.pending_assign_live (d := { d with ddlHeapIdx := k }) hslot (by simp [hdr]) hlive]
  congr 1
  funext w
  by_cases hw : w = wt
  · rw [hw, Function.update_self, hd]
    rfl
  · rw [Function.update_of_ne hw]

/-- The mask of a node is 0 if nothing is pending in it. -/
theorem EventNode.mask_eq_zero {n : EventNode} : n.mask = 0 ↔ ∀ wt, n.pending wt = none := by
  rw [EventNode.mask, requested_eq_zero]
  simp

section

variable [LawfulFdTree τ π] {V : List ℤ} {s : Svc τ}

/-- The storage of an fd's node. -/
theorem Inv.node_of_lookup (h : Inv V s) {fd : ℤ} {a : Addr}
    (ha : lookup s.asyncHandlers fd = some a) : ∃ n, s.nodes a = some n :=
  Option.isSome_iff_exists.mp ((h.dom a).mpr ⟨fd, ha⟩)

/-- Two fds have different nodes. -/
theorem Inv.lookup_inj (h : Inv V s) {fd fd' : ℤ} {a : Addr}
    (h₁ : lookup s.asyncHandlers fd = some a) (h₂ : lookup s.asyncHandlers fd' = some a) :
    fd = fd' :=
  Option.some.inj (((fdOf_iff h.tree).mpr h₁).symm.trans ((fdOf_iff h.tree).mpr h₂))

/-- Two descriptors are one if their nodes are. -/
theorem Inv.fd_eq_iff (h : Inv V s) {fd fd' : ℤ} {a a' : Addr}
    (h₁ : lookup s.asyncHandlers fd = some a) (h₂ : lookup s.asyncHandlers fd' = some a') :
    fd' = fd ↔ a' = a := by
  constructor
  · rintro rfl
    exact Option.some.inj (h₂.symm.trans h₁)
  · rintro rfl
    exact h.lookup_inj h₂ h₁

/-- Two nodes with one position have one fd. -/
theorem Inv.idx_inj (h : Inv V s) {fd fd' : ℤ} {a b : Addr} {n k : EventNode}
    (ha : lookup s.asyncHandlers fd = some a) (hn : s.nodes a = some n)
    (hb : lookup s.asyncHandlers fd' = some b) (hk : s.nodes b = some k)
    (hidx : n.pollfdIdx = k.pollfdIdx) : fd = fd' := by
  obtain ⟨e, he, hfd, -⟩ := h.entry fd a n ha hn
  obtain ⟨e', he', hfd', -⟩ := h.entry fd' b k hb hk
  rw [hidx, he'] at he
  rw [← hfd, ← hfd', Option.some.inj he]

/-- The fds of the `pollfd`s are different. -/
theorem Inv.fd_inj (h : Inv V s) {i j : ℕ} {e e' : PollFd} (hi : s.pollfds.data[i]? = some e)
    (hj : s.pollfds.data[j]? = some e') (hfd : e.fd = e'.fd) : i = j := by
  obtain ⟨a, n, ha, hn, rfl⟩ := h.back i e hi
  obtain ⟨b, k, hb, hk, rfl⟩ := h.back j e' hj
  rw [← hfd, ha] at hb
  obtain rfl := Option.some.inj hb
  rw [hn] at hk
  rw [Option.some.inj hk]

/-- The heap entry of a timed event stands where the event says. -/
theorem Inv.entry_of_timed (h : Inv V s) {a : Addr} {wt : WaitType} {d : EventData}
    (hd : pendingAt s.nodes a wt = some d) (ht : 0 ≤ d.ddlHeapIdx) :
    ∃ e, s.timed[d.ddlHeapIdx.toNat]? = some e ∧ e.ioOpData = a ∧ e.eventType = wt := by
  obtain ⟨e, he, ha, hw⟩ := h.timers a wt d hd ht
  obtain ⟨k, hk⟩ := List.mem_iff_getElem?.mp he
  obtain ⟨d', hd', hdk⟩ := h.linked k e hk
  rw [ha, hw, hd] at hd'
  obtain rfl := Option.some.inj hd'
  exact ⟨e, by rw [hdk, Int.toNat_natCast, hk], ha, hw⟩

/-- Allowing more fds to be vacant. -/
theorem Inv.mono (h : Inv V s) {V' : List ℤ} (hV : ∀ fd ∈ V, fd ∈ V') : Inv V' s :=
  { h with
    entry := fun fd a n ha hn => by
      obtain ⟨e, he, hfd, hev, hne⟩ := h.entry fd a n ha hn
      exact ⟨e, he, hfd, hev, fun hno => hne fun hv => hno (hV fd hv)⟩ }

/-- **A node is present exactly when an event is pending**, for the fds not in `V`. -/
theorem Inv.present_iff (h : Inv V s) {fd : ℤ} (hfd : fd ∉ V) :
    (lookup s.asyncHandlers fd).isSome ↔ ∃ wt, (s.view fd wt).isSome := by
  constructor
  · intro hs
    obtain ⟨a, ha⟩ := Option.isSome_iff_exists.mp hs
    obtain ⟨n, hn⟩ := h.node_of_lookup ha
    obtain ⟨e, -, -, hev, hne⟩ := h.entry fd a n ha hn
    have hmask : n.mask ≠ 0 := hev ▸ hne hfd
    rw [ne_eq, EventNode.mask_eq_zero] at hmask
    push Not at hmask
    obtain ⟨wt, hwt⟩ := hmask
    exact ⟨wt, by rw [view_isSome ha hn]; exact Option.isSome_iff_ne_none.mpr hwt⟩
  · rintro ⟨wt, hwt⟩
    cases ha : lookup s.asyncHandlers fd with
    | none => simp [view_none ha] at hwt
    | some a => rfl

/-- The `pollfd` entries are those of the fds with a node. -/
theorem Inv.mem_pollfds_iff (h : Inv V s) {fd : ℤ} :
    (∃ e ∈ s.pollfds.data, e.fd = fd) ↔ (lookup s.asyncHandlers fd).isSome := by
  constructor
  · rintro ⟨e, he, rfl⟩
    obtain ⟨i, hi⟩ := List.mem_iff_getElem?.mp he
    obtain ⟨a, n, ha, -, -⟩ := h.back i e hi
    simp [ha]
  · intro hs
    obtain ⟨a, ha⟩ := Option.isSome_iff_exists.mp hs
    obtain ⟨n, hn⟩ := h.node_of_lookup ha
    obtain ⟨e, he, hfd, -⟩ := h.entry fd a n ha hn
    exact ⟨e, List.mem_of_getElem? he, hfd⟩

end

section

variable [LawfulFdTree τ π] {V : List ℤ} {s : Svc τ}

/-- **Changing the events of one node.** A state is consistent when it differs from a
consistent one in the events of one node, the poll bits of that node's fd, and the heap,
if these still agree with each other. -/
theorem Inv.setNode (h : Inv V s) {s' : Svc τ} {V' : List ℤ} {fd : ℤ} {a : Addr}
    {n n' : EventNode} (ha : lookup s.asyncHandlers fd = some a) (hn : s.nodes a = some n)
    (htree : s'.asyncHandlers = s.asyncHandlers) (hnext : s.alloc.next ≤ s'.alloc.next)
    (hn' : s'.nodes a = some n') (hwf : n'.Wf) (hidx : n'.pollfdIdx = n.pollfdIdx)
    (hother : ∀ b, b ≠ a →
      (s'.nodes b).map EventNode.forget = (s.nodes b).map EventNode.forget)
    (hpoll : ∀ i, s'.pollfds.data[i]? = if i = n.pollfdIdx
      then (s.pollfds.data[i]?).map (fun e => { e with events := n'.mask })
      else s.pollfds.data[i]?)
    (hheap : Ordered (fun x y => asyncHpEntLt x y) s'.timed)
    (hlinked : EntriesLinked s'.nodes s'.timed)
    (htimers : ∀ a wt d, pendingAt s'.nodes a wt = some d → 0 ≤ d.ddlHeapIdx →
      ∃ e ∈ s'.timed, e.ioOpData = a ∧ e.eventType = wt)
    (hV : ∀ fd' ∈ V, fd' ∈ V') (hmask : fd ∉ V' → n'.mask ≠ 0) : Inv V' s' := by
  have hsome : ∀ b, (s'.nodes b).isSome = (s.nodes b).isSome := by
    intro b
    by_cases hb : b = a
    · subst hb
      simp [hn, hn']
    · simpa using congrArg Option.isSome (hother b hb)
  -- a node other than `a` is, but for positions, the old one
  have hold : ∀ b k, b ≠ a → s'.nodes b = some k →
      ∃ k₀, s.nodes b = some k₀ ∧ k.forget = k₀.forget := by
    intro b k hb hk
    have := hother b hb
    rw [hk, Option.map_some, eq_comm, Option.map_eq_some_iff] at this
    obtain ⟨k₀, hk₀, hf⟩ := this
    exact ⟨k₀, hk₀, hf.symm⟩
  refine ⟨htree ▸ h.tree, fun b => ?_, fun b hb => ?_, fun b k hk => ?_, fun fd' b k hb hk => ?_,
    fun i e he => ?_, hheap, hlinked, htimers⟩
  · rw [hsome, htree]
    exact h.dom b
  · rw [hsome] at hb
    exact lt_of_lt_of_le (h.fresh b hb) hnext
  · by_cases hba : b = a
    · subst hba
      rw [hn', Option.some.injEq] at hk
      exact hk ▸ hwf
    · obtain ⟨k₀, hk₀, hf⟩ := hold b k hba hk
      rw [← EventNode.wf_forget, hf, EventNode.wf_forget]
      exact h.wf b k₀ hk₀
  · rw [htree] at hb
    by_cases hba : b = a
    · subst hba
      obtain rfl := h.lookup_inj ha hb
      rw [hn', Option.some.injEq] at hk
      subst hk
      obtain ⟨e, he, hfd, -, -⟩ := h.entry fd b n ha hn
      refine ⟨{ e with events := n'.mask }, ?_, hfd, rfl, hmask⟩
      rw [hidx, hpoll, if_pos rfl, he]
      rfl
    · obtain ⟨k₀, hk₀, hf⟩ := hold b k hba hk
      obtain ⟨e, he, hfd, hev, hne⟩ := h.entry fd' b k₀ hb hk₀
      have hki : k.pollfdIdx = k₀.pollfdIdx := by
        simpa using congrArg EventNode.pollfdIdx hf
      have hne' : k.pollfdIdx ≠ n.pollfdIdx := fun hc => hba (by
        obtain rfl := h.idx_inj hb hk₀ ha hn (hki.symm.trans hc)
        exact Option.some.inj (hb.symm.trans ha))
      refine ⟨e, ?_, hfd, by rw [EventNode.mask_congr hf, hev],
        fun hv => hne fun hc => hv (hV _ hc)⟩
      rw [hpoll, if_neg hne', hki, he]
  · rw [hpoll] at he
    obtain ⟨e₀, he₀, hfd₀⟩ : ∃ e₀, s.pollfds.data[i]? = some e₀ ∧ e₀.fd = e.fd := by
      split at he
      · obtain ⟨e₀, he₀, rfl⟩ := Option.map_eq_some_iff.mp he
        exact ⟨e₀, he₀, rfl⟩
      · exact ⟨e, he, rfl⟩
    obtain ⟨b, k, hb, hk, hki⟩ := h.back i e₀ he₀
    rw [hfd₀] at hb
    by_cases hba : b = a
    · subst hba
      rw [hn, Option.some.injEq] at hk
      exact ⟨b, n', by rw [htree, hb], hn', by rw [hidx, hk, hki]⟩
    · have := hother b hba
      rw [hk, Option.map_some, Option.map_eq_some_iff] at this
      obtain ⟨k', hk', hf⟩ := this
      have hkk : k'.pollfdIdx = k.pollfdIdx := by simpa using congrArg EventNode.pollfdIdx hf
      exact ⟨b, k', by rw [htree, hb], hk', hkk.trans hki⟩

end

section

variable [LawfulFdTree τ π] {V : List ℤ} {s : Svc τ}

/-- Consistency is about the tree, the event storage, the `pollfd`s and the heap of timed
events only. -/
theorem Inv.frame (h : Inv V s) {s' : Svc τ} (htree : s'.asyncHandlers = s.asyncHandlers)
    (hnodes : s'.nodes = s.nodes) (hpoll : s'.pollfds.data = s.pollfds.data)
    (htimed : s'.timed = s.timed) (hnext : s.alloc.next ≤ s'.alloc.next) : Inv V s' where
  tree := htree ▸ h.tree
  dom a := by rw [hnodes, htree]; exact h.dom a
  fresh a ha := lt_of_lt_of_le (h.fresh a (hnodes ▸ ha)) hnext
  wf a n hn := h.wf a n (hnodes ▸ hn)
  entry fd a n ha hn := by
    rw [hpoll]
    exact h.entry fd a n (htree ▸ ha) (hnodes ▸ hn)
  back i e he := by
    rw [htree, hnodes]
    exact h.back i e (hpoll ▸ he)
  heap := htimed ▸ h.heap
  linked := by rw [hnodes, htimed]; exact h.linked
  timers := by rw [hnodes, htimed]; exact h.timers

/-- What is reported in the `pollfd`s does not matter to consistency. -/
theorem Inv.setReports (h : Inv V s) {P : DynArray PollFd}
    (hP : P.data.map (fun e => (e.fd, e.events)) =
      s.pollfds.data.map fun e => (e.fd, e.events)) : Inv V { s with pollfds := P } := by
  have hpos : ∀ {P P' : List PollFd}, P'.map (fun e => (e.fd, e.events)) =
      P.map (fun e => (e.fd, e.events)) → ∀ {i : ℕ} {e}, P[i]? = some e →
        ∃ e', P'[i]? = some e' ∧ e'.fd = e.fd ∧ e'.events = e.events := by
    intro P P' hP i e he
    have := congrArg (fun l => l[i]?) hP
    simp only [List.getElem?_map, he, Option.map_some, Option.map_eq_some_iff,
      Prod.mk.injEq] at this
    exact this
  refine { h with entry := fun fd a n ha hn => ?_, back := fun i e he => ?_ }
  · obtain ⟨e, he, hfd, hev, hne⟩ := h.entry fd a n ha hn
    obtain ⟨e', he', hfd', hev'⟩ := hpos hP he
    exact ⟨e', he', hfd'.trans hfd, hev'.trans hev, hev' ▸ hne⟩
  · obtain ⟨e', he', hfd', -⟩ := hpos hP.symm he
    rw [← hfd']
    exact h.back i e' he'

/-- The fds of the `pollfd`s are different. -/
theorem Inv.nodup_fds (h : Inv V s) : (s.pollfds.data.map PollFd.fd).Nodup := by
  rw [List.nodup_iff_getElem?_ne_getElem?]
  intro i j hij hj heq
  rw [List.getElem?_map, List.getElem?_map] at heq
  obtain ⟨e', he'⟩ := exists_getElem? (show j < s.pollfds.data.length by simpa using hj)
  rw [he', Option.map_some, Option.map_eq_some_iff] at heq
  obtain ⟨e, he, hfd⟩ := heq
  exact hij.ne (h.fd_inj he he' hfd)

end

/-- A service with nothing pending is consistent. -/
theorem inv_of_empty [LawfulFdTree τ π] {s : Svc τ} (htree : Valid s.asyncHandlers)
    (hlookup : ∀ fd, lookup s.asyncHandlers fd = none) (hnodes : ∀ a, s.nodes a = none)
    (hpollfds : s.pollfds.data = []) (htimed : s.timed = []) : Inv [] s where
  tree := htree
  dom a := by simp [hnodes, hlookup]
  fresh a := by simp [hnodes]
  wf a n := by simp [hnodes]
  entry fd a n := by simp [hlookup]
  back i e := by simp [hpollfds]
  heap i x y := by simp [htimed]
  linked k e := by simp [htimed]
  timers a wt d := by simp [pendingAt, hnodes]

/-- A new service is consistent, with nothing pending. -/
theorem inv_create [LawfulFdTree τ π] (alloc : Alloc) (clock : ℤ) (ints : Addr → Int32)
    (errs : Addr → IoErrcode) : Inv [] (iosvcCreate alloc clock ints errs : Svc τ) :=
  inv_of_empty valid_empty lookup_empty (fun _ => rfl) rfl rfl

/-- Nothing is seen of a new service. -/
theorem view_create [LawfulFdTree τ π] (alloc : Alloc) (clock : ℤ) (ints : Addr → Int32)
    (errs : Addr → IoErrcode) (fd : ℤ) (wt : WaitType) :
    (iosvcCreate alloc clock ints errs : Svc τ).view fd wt = none :=
  view_none (lookup_empty fd)

end IoEngine
