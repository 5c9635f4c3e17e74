import IoEngine.PrepStop
import IoEngine.ServiceRuns

/-!
# Deleting a Service

`iosvc_delete` frees the blocks of the four arrays, the nodes of the tree with the blocks of
their events, and the service itself. It calls no handler: what is pending is dropped.

The model keeps the list of the blocks that have been freed. Freeing a block twice, and reading
a node that has been freed, fail.

## Main results

* `delRbNode_spec`: on a linked tree `del_rb_node` **frees the blocks of its nodes**, each once.
* `iosvcDelete_frees`: in every state of a service `iosvc_delete` **frees what is allocated**,
  each block once, and reads nothing that it has freed.
-/

open RedBlack RedBlack.ColTree

namespace IoEngine

open FdTree Svc LawfulFdTree

/-! ### Blocks -/

/-- A block of memory that a service owns. -/
inductive SvcBlock
  | timedEvents
  | timedHandlers
  | pollfds
  | syncHandlers
  | aux (a : Addr)
  | ex (a : Addr)
  | node (a : Addr)
  | service
  deriving DecidableEq, Repr

namespace SvcBlock

/-- The node that a block belongs to. -/
def owner : SvcBlock → Ptr
  | .aux a | .ex a | .node a => some a
  | _ => none

end SvcBlock

/-- A block is allocated: an array has one when its capacity is not 0. -/
def Svc.Allocated (s : Svc RbMem) : SvcBlock → Prop
  | .timedEvents => s.timedEventsHeap.capacity ≠ 0
  | .timedHandlers => s.timedHandlersHeap.capacity ≠ 0
  | .pollfds => s.pollfds.capacity ≠ 0
  | .syncHandlers => s.syncHandlers.capacity ≠ 0
  | .aux a => ∃ n, s.nodes a = some n ∧ n.auxEvent.isSome
  | .ex a => ∃ n, s.nodes a = some n ∧ n.exEvent.isSome
  | .node a => (s.nodes a).isSome
  | .service => True

/-! ### The functions -/

/-- `free` of a block, which must not have been freed before. -/
def freeBlock (b : SvcBlock) (freed : List SvcBlock) : Option (List SvcBlock) :=
  if b ∈ freed then none else some (b :: freed)

/-- `free` of a pointer, which does nothing when it is `NULL`. -/
def freePtr (b : SvcBlock) (nonNull : Bool) (freed : List SvcBlock) : Option (List SvcBlock) :=
  if nonNull then freeBlock b freed else some freed

/-- The fields of a node, which must not have been freed. -/
def readNode (s : Svc RbMem) (freed : List SvcBlock) (a : Addr) : Option (RbLinks × EventNode) :=
  if .node a ∈ freed then none
  else do
    let links ← s.asyncHandlers.node a
    let n ← s.nodes a
    some (links, n)

/-- `del_rb_node`. -/
def delRbNode (s : Svc RbMem) : ℕ → Ptr → List SvcBlock → Option (List SvcBlock)
  | _, none, freed => some freed
  | 0, some _, _ => none
  | fuel + 1, some a, freed => do
      let (_, n) ← readNode s freed a
      let freed ← freePtr (.aux a) n.auxEvent.isSome freed
      let (_, n) ← readNode s freed a
      let freed ← freePtr (.ex a) n.exEvent.isSome freed
      let (links, _) ← readNode s freed a
      let freed ← delRbNode s fuel links.left freed
      let (links, _) ← readNode s freed a
      let freed ← delRbNode s fuel links.right freed
      freeBlock (.node a) freed

/-- `iosvc_delete`: the blocks that it frees, the last one first. -/
def iosvcDelete (s : Svc RbMem) : Option (List SvcBlock) := do
  let freed ← freePtr .timedEvents (s.timedEventsHeap.capacity ≠ 0) []
  let freed ← freePtr .timedHandlers (s.timedHandlersHeap.capacity ≠ 0) freed
  let freed ← freePtr .pollfds (s.pollfds.capacity ≠ 0) freed
  let freed ← freePtr .syncHandlers (s.syncHandlers.capacity ≠ 0) freed
  let freed ← delRbNode s (s.asyncHandlers.top + 1) s.asyncHandlers.root freed
  freeBlock .service freed

/-! ### One block -/

/-- The blocks with `P` have been freed, each once. -/
structure Frees (P : SvcBlock → Prop) (freed freed' : List SvcBlock) : Prop where
  nodup : freed.Nodup → freed'.Nodup
  mem : ∀ b, b ∈ freed' ↔ b ∈ freed ∨ P b

section

variable {P Q : SvcBlock → Prop} {freed freed₁ freed' : List SvcBlock} {b : SvcBlock}

/-- Only which blocks are freed matters. -/
theorem Frees.congr (h : Frees P freed freed') (hPQ : ∀ b, P b ↔ Q b) : Frees Q freed freed' :=
  ⟨h.nodup, fun b => (h.mem b).trans (or_congr_right (hPQ b))⟩

/-- Without a block there is nothing to free. -/
theorem Frees.none (hP : ∀ b, ¬ P b) : Frees P freed freed :=
  ⟨id, fun b => (or_iff_left (hP b)).symm⟩

/-- Freeing some blocks and then others frees them all. -/
theorem Frees.trans (h₁ : Frees P freed freed₁) (h₂ : Frees Q freed₁ freed') :
    Frees (fun b => P b ∨ Q b) freed freed' :=
  ⟨fun h => h₂.nodup (h₁.nodup h), fun b => by rw [h₂.mem, h₁.mem, or_assoc]⟩

/-- A block that is neither freed before nor among the others is not freed. -/
theorem Frees.notMem (h : Frees P freed freed') (hb : b ∉ freed) (hP : ¬ P b) : b ∉ freed' := by
  rw [h.mem, not_or]
  exact ⟨hb, hP⟩

/-- A block that has not been freed can be freed. -/
theorem freeBlock_spec (hb : b ∉ freed) :
    freeBlock b freed = some (b :: freed) ∧ Frees (· = b) freed (b :: freed) :=
  ⟨if_neg hb, fun h => List.nodup_cons.mpr ⟨hb, h⟩, fun c => by rw [List.mem_cons, or_comm]⟩

/-- A pointer can be freed, whether it is `NULL` or not. -/
theorem freePtr_spec (nonNull : Bool) (hb : b ∉ freed) :
    ∃ freed', freePtr b nonNull freed = some freed' ∧
      Frees (fun c => c = b ∧ nonNull = true) freed freed' := by
  cases nonNull with
  | false => exact ⟨freed, rfl, .none fun c h => Bool.false_ne_true h.2⟩
  | true =>
      obtain ⟨hrun, hfrees⟩ := freeBlock_spec hb
      exact ⟨b :: freed, hrun, hfrees.congr fun c => (and_iff_left rfl).symm⟩

end

/-! ### The tree -/

/-- The allocated blocks of the nodes of a tree. -/
def Svc.TreeBlock (s : Svc RbMem) (t : ColTree RbElem) (b : SvcBlock) : Prop :=
  s.Allocated b ∧ ∃ a ∈ addrs t, b.owner = some a

/-- The blocks of a tree are those of its root and of its sides. -/
theorem treeBlock_node {s : Svc RbMem} {red : Bool} {l r : ColTree RbElem} {x : RbElem}
    {n : EventNode} (hn : s.nodes x.1 = some n) (b : SvcBlock) :
    s.TreeBlock (.node red l x r) b ↔
      ((((b = .aux x.1 ∧ n.auxEvent.isSome = true) ∨ (b = .ex x.1 ∧ n.exEvent.isSome = true)) ∨
        s.TreeBlock l b) ∨ s.TreeBlock r b) ∨ b = .node x.1 := by
  have hown : (s.Allocated b ∧ b.owner = some x.1) ↔
      (b = .aux x.1 ∧ n.auxEvent.isSome = true) ∨ (b = .ex x.1 ∧ n.exEvent.isSome = true) ∨
        b = .node x.1 := by
    cases b <;> simp only [SvcBlock.owner, Svc.Allocated, reduceCtorEq, SvcBlock.aux.injEq,
      SvcBlock.ex.injEq, SvcBlock.node.injEq, Option.some.injEq, and_false, false_and, or_false,
      false_or]
    case aux a =>
      constructor
      · rintro ⟨⟨n', hn', haux⟩, rfl⟩
        obtain rfl : n' = n := Option.some.inj (hn'.symm.trans hn)
        exact ⟨rfl, haux⟩
      · rintro ⟨rfl, haux⟩
        exact ⟨⟨n, hn, haux⟩, rfl⟩
    case ex a =>
      constructor
      · rintro ⟨⟨n', hn', hex⟩, rfl⟩
        obtain rfl : n' = n := Option.some.inj (hn'.symm.trans hn)
        exact ⟨rfl, hex⟩
      · rintro ⟨rfl, hex⟩
        exact ⟨⟨n, hn, hex⟩, rfl⟩
    case node a =>
      constructor
      · exact And.right
      · rintro rfl
        exact ⟨by simp [hn], rfl⟩
  have hsplit : s.TreeBlock (.node red l x r) b ↔
      s.TreeBlock l b ∨ (s.Allocated b ∧ b.owner = some x.1) ∨ s.TreeBlock r b := by
    simp only [Svc.TreeBlock, addrs, toList, List.map_append, List.map_cons, List.mem_append,
      List.mem_cons, or_and_right, exists_or, exists_eq_left, and_or_left]
  rw [hsplit, hown]
  tauto

/-- A block of a tree is not one of a node elsewhere. -/
theorem not_treeBlock {s : Svc RbMem} {t : ColTree RbElem} {a : Addr} {b : SvcBlock}
    (ha : a ∉ addrs t) (hb : b.owner = some a) : ¬ s.TreeBlock t b := by
  rintro ⟨-, a', ha', hb'⟩
  obtain rfl : a = a' := Option.some.inj (hb.symm.trans hb')
  exact ha ha'

/-- A node that is not freed can be read. -/
theorem readNode_eq {s : Svc RbMem} {freed : List SvcBlock} {a : Addr} {links : RbLinks}
    {n : EventNode} (hlinks : s.asyncHandlers.node a = some links) (hn : s.nodes a = some n)
    (ha : .node a ∉ freed) : readNode s freed a = some (links, n) := by
  simp only [readNode, if_neg ha, hlinks, hn, bind, Option.bind_some]

/-- **`del_rb_node`** frees the blocks of the nodes of a tree, each once. -/
theorem delRbNode_spec {s : Svc RbMem} {t : ColTree RbElem} {fuel : ℕ} {freed : List SvcBlock}
    (hl : LinkedTree s.asyncHandlers t) (hnd : (addrs t).Nodup)
    (hnodes : ∀ a ∈ addrs t, (s.nodes a).isSome) (hfuel : t.toList.length ≤ fuel)
    (hfreed : ∀ b ∈ freed, ∀ a ∈ addrs t, b.owner ≠ some a) :
    ∃ freed', delRbNode s fuel (ptr t) freed = some freed' ∧
      Frees (s.TreeBlock t) freed freed' := by
  induction t generalizing fuel freed with
  | nil =>
      refine ⟨freed, by simp [delRbNode], .none fun b hb => ?_⟩
      obtain ⟨-, a, ha, -⟩ := hb
      simp [addrs, toList] at ha
  | node red l x r ihl ihr =>
      obtain ⟨⟨parent, hx⟩, hll, hlr⟩ := hl
      simp only [addrs, toList, List.map_append, List.map_cons, List.nodup_append',
        List.nodup_cons, List.disjoint_cons_right] at hnd
      obtain ⟨hndl, ⟨hxr, hndr⟩, hxl, hdisj⟩ := hnd
      simp only [addrs, toList, List.map_append, List.map_cons, List.mem_append,
        List.mem_cons] at hnodes hfreed
      obtain ⟨fuel, rfl⟩ : ∃ k, fuel = k + 1 := ⟨fuel - 1, by
        simp only [toList, List.length_append, List.length_cons] at hfuel
        omega⟩
      simp only [toList, List.length_append, List.length_cons] at hfuel
      obtain ⟨n, hn⟩ := Option.isSome_iff_exists.mp (hnodes x.1 (by simp))
      have hown : ∀ b : SvcBlock, b.owner = some x.1 → b ∉ freed := fun b hb hmem =>
        hfreed b hmem x.1 (by simp) hb
      -- the two blocks of the node
      obtain ⟨freed₁, hrun₁, hf₁⟩ := freePtr_spec (b := .aux x.1) n.auxEvent.isSome (hown _ rfl)
      obtain ⟨freed₂, hrun₂, hf₂⟩ := freePtr_spec (b := .ex x.1) n.exEvent.isSome
        (hf₁.notMem (hown _ rfl) fun h => by simp at h)
      have hf₁₂ := hf₁.trans hf₂
      have hnode₁ : .node x.1 ∉ freed₁ := hf₁.notMem (hown _ rfl) fun h => by simp at h
      have hnode₂ : .node x.1 ∉ freed₂ := hf₁₂.notMem (hown _ rfl) fun h => by simp at h
      have hother : ∀ b ∈ freed₂, ∀ a, a ≠ x.1 → a ∈ addrs l ∨ a ∈ addrs r → b.owner ≠ some a := by
        intro b hb a hax ha
        rcases (hf₁₂.mem b).mp hb with hb | ⟨rfl, -⟩ | ⟨rfl, -⟩
        · exact hfreed b hb a (ha.imp_right .inr)
        · exact fun hc => hax (Option.some.inj hc).symm
        · exact fun hc => hax (Option.some.inj hc).symm
      -- the left child, then the right one
      obtain ⟨freed₃, hrun₃, hf₃⟩ := ihl hll hndl (fun a ha => hnodes a (.inl ha))
        (show l.toList.length ≤ fuel by omega)
        (fun b hb a ha => hother b hb a (fun hc => hxl (hc ▸ ha)) (.inl ha))
      have hnode₃ : .node x.1 ∉ freed₃ := hf₃.notMem hnode₂ (not_treeBlock hxl rfl)
      obtain ⟨freed₄, hrun₄, hf₄⟩ := ihr hlr hndr (fun a ha => hnodes a (.inr (.inr ha)))
        (show r.toList.length ≤ fuel by omega) (fun b hb a ha => by
          rcases (hf₃.mem b).mp hb with hb | ⟨-, a', ha', hb⟩
          · exact hother b hb a (fun hc => hxr (hc ▸ ha)) (.inr ha)
          · rw [hb]
            exact fun hc => hdisj (Option.some.inj hc ▸ ha') ha)
      have hnode₄ : .node x.1 ∉ freed₄ := hf₄.notMem hnode₃ (not_treeBlock hxr rfl)
      -- the node itself comes last
      obtain ⟨hrun₅, hf₅⟩ := freeBlock_spec hnode₄
      refine ⟨.node x.1 :: freed₄, ?_, ?_⟩
      · simp only [ptr_node, delRbNode, readNode_eq hx hn (hown _ rfl), readNode_eq hx hn hnode₁,
          readNode_eq hx hn hnode₂, readNode_eq hx hn hnode₃, hrun₁, hrun₂, hrun₃, hrun₄, hrun₅,
          bind, Option.bind_some]
      · exact (((hf₁₂.trans hf₃).trans hf₄).trans hf₅).congr fun b => (treeBlock_node hn b).symm

/-! ### The service -/

section

variable {beh : Behaviour RbMem} {alloc : Alloc} {clock : ℤ} {ints : Addr → Int32}
  {errs : Addr → IoErrcode} {V : List ℤ} {s : Svc RbMem}

/-- Every allocated block of a node belongs to a node of the tree. -/
theorem Inv.owner_mem (h : Inv V s) {T : ColTree RbElem} (hT : ValidTree s.asyncHandlers T)
    {b : SvcBlock} {a : Addr} (hb : s.Allocated b) (ha : b.owner = some a) : a ∈ addrs T := by
  have hnode : (s.nodes a).isSome := by
    cases b <;> simp only [SvcBlock.owner, reduceCtorEq, Option.some.injEq] at ha
    case aux c =>
      obtain ⟨n, hn, -⟩ := hb
      simp [← ha, hn]
    case ex c =>
      obtain ⟨n, hn, -⟩ := hb
      simp [← ha, hn]
    case node c => exact ha ▸ hb
  obtain ⟨fd, hfd⟩ := (h.dom a).mp hnode
  exact List.mem_map.mpr ⟨(a, fd), hT.lookup_iff.mp hfd, rfl⟩

/-- **`iosvc_delete` in a consistent state** frees what is allocated. -/
theorem Inv.delete (h : Inv V s) :
    ∃ freed, iosvcDelete s = some freed ∧ freed.Nodup ∧ ∀ b, b ∈ freed ↔ s.Allocated b := by
  obtain ⟨T, hT⟩ := h.tree
  obtain ⟨f₁, hrun₁, hf₁⟩ := freePtr_spec (decide (s.timedEventsHeap.capacity ≠ 0))
    (show SvcBlock.timedEvents ∉ [] from List.not_mem_nil)
  obtain ⟨f₂, hrun₂, hf₂⟩ := freePtr_spec (b := .timedHandlers)
    (decide (s.timedHandlersHeap.capacity ≠ 0))
    (hf₁.notMem List.not_mem_nil fun h => by simp at h)
  have hf₁₂ := hf₁.trans hf₂
  obtain ⟨f₃, hrun₃, hf₃⟩ := freePtr_spec (b := .pollfds) (decide (s.pollfds.capacity ≠ 0))
    (hf₁₂.notMem List.not_mem_nil fun h => by simp at h)
  have hf₁₃ := hf₁₂.trans hf₃
  obtain ⟨f₄, hrun₄, hf₄⟩ := freePtr_spec (b := .syncHandlers)
    (decide (s.syncHandlers.capacity ≠ 0)) (hf₁₃.notMem List.not_mem_nil fun h => by simp at h)
  have hf₁₄ := hf₁₃.trans hf₄
  have hlen : T.toList.length ≤ s.asyncHandlers.top := by
    simpa [addrs] using length_le_of_below hT.holds.nodup hT.below
  obtain ⟨f₅, hrun₅, hf₅⟩ := delRbNode_spec hT.holds.repr.linked hT.holds.nodup
    (fun a ha => by
      obtain ⟨x, hx, rfl⟩ := List.mem_map.mp ha
      exact (h.dom x.1).mpr ⟨x.2, hT.lookup_iff.mpr hx⟩)
    (show T.toList.length ≤ s.asyncHandlers.top + 1 by omega)
    (fun b (hb : b ∈ f₄) a _ => by
      rcases (hf₁₄.mem b).mp hb with hb | ((⟨rfl, -⟩ | ⟨rfl, -⟩) | ⟨rfl, -⟩) | ⟨rfl, -⟩
      · exact absurd hb List.not_mem_nil
      all_goals exact Option.some_ne_none a ∘ Eq.symm)
  rw [← hT.holds.root] at hrun₅
  have hf₁₅ := hf₁₄.trans hf₅
  obtain ⟨hrun₆, hf₆⟩ := freeBlock_spec (b := .service)
    (hf₁₅.notMem List.not_mem_nil fun h => by simp [Svc.TreeBlock, SvcBlock.owner] at h)
  have hf := hf₁₅.trans hf₆
  refine ⟨.service :: f₅, ?_, hf.nodup List.nodup_nil, fun b => ?_⟩
  · simp only [iosvcDelete, hrun₁, hrun₂, hrun₃, hrun₄, hrun₅, hrun₆, bind, Option.bind_some]
  · rw [hf.mem]
    have htree : s.TreeBlock T b ↔ s.Allocated b ∧ b.owner.isSome := by
      constructor
      · rintro ⟨hb, a, -, ha⟩
        exact ⟨hb, by simp [ha]⟩
      · rintro ⟨hb, ha⟩
        obtain ⟨a, ha⟩ := Option.isSome_iff_exists.mp ha
        exact ⟨hb, a, h.owner_mem hT hb ha, ha⟩
    rw [htree]
    cases b <;> simp [SvcBlock.owner, Svc.Allocated]

/-- **Deleting a service frees what is allocated**, each block once, in every state of a life whose
steps all meet their conditions: no block is freed twice, none is left, and no node is read after it
has been freed. -/
theorem iosvcDelete_frees (h : SoundService beh (iosvcCreate alloc clock ints errs) s) :
    ∃ freed, iosvcDelete s = some freed ∧ freed.Nodup ∧ ∀ b, b ∈ freed ↔ s.Allocated b :=
  (serviceInv_of_steps h).loop.inv.delete

/-- A read and a write of fd 5 are pending: the write is in a block of its own. -/
theorem iosvcDelete_frees_pending : ∃ (s : Svc RbMem) (freed : List SvcBlock),
    iosvcDelete s = some freed ∧ .aux 1 ∈ freed ∧ .node 1 ∈ freed ∧ .timedEvents ∉ freed := by
  let read : ApiCall := .sched ⟨5, some .read⟩ ⟨some 2, 0⟩ none
  let write : ApiCall := .sched ⟨5, some .write⟩ ⟨some 3, 0⟩ none
  let s₀ : Svc RbMem := newService 5 (fun _ => 7) fun _ => .ok
  have hrun : (apiCall (fun _ => none) s₀ read).any (fun r₁ =>
      decide (r₁.2.status = .ready) && callOk (fun _ => false) (fun _ => none) s₀ read &&
      (apiCall (fun _ => none) r₁.2 write).any fun r₂ =>
        callOk (fun _ => false) (fun _ => none) r₁.2 write &&
        decide (r₂.2.timedEventsHeap.capacity = 0) &&
        (r₂.2.nodes 1).any fun n => n.auxEvent.isSome) = true := by
    decide
  simp only [Option.any_eq_true, Bool.and_eq_true, decide_eq_true_eq] at hrun
  obtain ⟨⟨code₁, s₁⟩, h₁, ⟨hst₁, hok₁⟩, ⟨code₂, s₂⟩, h₂, ⟨hok₂, hcap⟩, n, hn, haux⟩ := hrun
  have hout : ∀ s : Svc RbMem, s.status = .ready → ¬ s.Live := fun s hst => by simp [Live, hst]
  have hsteps : SoundService (fun _ _ => .ret) s₀ s₂ := by
    refine .head ⟨_, .call read code₁ (hout s₀ rfl) h₁, hok₁⟩ ?_
    exact .single ⟨_, .call write code₂ (hout s₁ hst₁) h₂, hok₂⟩
  obtain ⟨freed, hfreed, -, hmem⟩ := iosvcDelete_frees hsteps
  refine ⟨s₂, freed, hfreed, (hmem _).mpr ⟨n, hn, haux⟩, (hmem _).mpr ?_, fun hc => ?_⟩
  · exact Option.isSome_iff_exists.mpr ⟨n, hn⟩
  · exact (hmem _).mp hc hcap

end

end IoEngine
