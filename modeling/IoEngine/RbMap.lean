import IoEngine.RbInsert
import IoEngine.RbExtract

/-!
# The Pointer Tree as a Finite Map

`rb_probe`, `rb_insert` and `rb_extract` on a valid tree, put together: probing for `fd`
and inserting there a fresh node adds one binding, probing and extracting removes one.
Both operations are run on the place and parent that `rb_probe` returned.

Two conditions on the state before a step matter to the callers and are executable:

* `RbMem.mixedInsert m fd`: inserting `fd` starts with a mixed rotation, after which the
  slot that was probed for belongs to another node.
* `RbMem.adjacentBlackPred m fd`: the node of `fd` has two children, and its left child is
  black and has no right child. Then `rb_extract` re-probes from the predecessor's left
  slot, which holds the node itself, and gets `NULL` for its parent.

## Main results

* `ValidTree.insert`: **insertion keeps the tree valid**, whatever the rotations.
* `ValidTree.extract`: **extraction keeps the tree valid**, outside the second condition.
* `ValidTree.slot_unique`: only one slot of a valid tree holds a given node.
* `ValidTree.store_twice`, `not_valid_of_store_freed`: writing a node to a second slot, or a
  freed node to any, leaves no valid tree.
* `execAll_valid`: along every sequence of insertions and extractions whose steps avoid
  the second condition, every tree is valid and every call returns.
-/

open RedBlack RedBlack.ColTree RedBlack.Ctx

namespace IoEngine

/-- The node that holds a slot. -/
def RbPlace.holder : RbPlace → Ptr
  | .root => none
  | .child a _ => some a

/-- The node that holds the place of a hole is the parent of the hole. -/
@[simp] theorem holder_holePlace (c : Ctx RbElem) : (holePlace c).holder = holeParent c := by
  cases c <;> rfl

namespace RbMem

/-- The empty tree, before any allocation. -/
def empty : RbMem :=
  { node := fun _ => none, root := none, top := 0 }

/-- Inserting `fd` starts with a mixed rotation: its parent is red, its uncle is not, and
it hangs on another side of the parent than the parent of the grandparent. -/
def mixedInsert (m : RbMem) (fd : ℤ) : Bool :=
  (do
    let (place, _) ← m.rbProbe .root fd
    match place with
    | .root => some false
    | .child p d =>
        let pn ← m.node p
        let g ← pn.parent
        let gn ← m.node g
        let parentDir := if gn.right = some p then Dir.right else Dir.left
        let uncleRed ← m.isRed (gn.child parentDir.opp)
        some (pn.red && !uncleRed && decide (d ≠ parentDir)) : Option Bool).getD false

/-- The node of `fd` has two children, and the left one is black and has no right child. -/
def adjacentBlackPred (m : RbMem) (fd : ℤ) : Bool :=
  (do
    let a ← m.lookup fd
    let n ← m.node a
    let l ← n.left
    let _ ← n.right
    let ln ← m.node l
    some (!ln.red && ln.right.isNone) : Option Bool).getD false

end RbMem

/-! ### Insertion -/

/-- A freshly made node does not disturb the tree. -/
theorem Holds.makeRbnode {m : RbMem} {T : ColTree RbElem} {a : Addr} (h : Holds m T)
    (ha : a ∉ addrs T) (fd : ℤ) : Holds (m.makeRbnode a fd) T := by
  refine ⟨h.root, h.repr.frame fun b hb => ?_, h.nodup⟩
  refine Function.update_of_ne ?_ _ _
  rintro rfl
  exact ha hb

/-- The executable condition says what the context of the slot says. -/
theorem ValidTree.mixedInsert_iff {m : RbMem} {c : Ctx RbElem} {fd : ℤ}
    (h : ValidTree m (plug c .nil)) (hp : m.rbProbe .root fd = some (holePlace c, holeParent c)) :
    m.mixedInsert fd = true ↔ Mixed c := by
  rw [RbMem.mixedInsert, hp]
  match c, h with
  | [], h => simp [holePlace, Mixed]
  | [f], h =>
      have hf := Holds.node_eq (c := []) (d := f.dir) h.holds
      simp [holePlace, Mixed, hf, holeParent]
  | f :: g :: c, h =>
      have hf := Holds.node_eq (c := g :: c) (d := f.dir) h.holds
      have hfg : Holds m (plug c (side g.dir g.red g.elem
        (side f.dir f.red f.elem .nil f.sib) g.sib)) := h.holds
      have hg := hfg.node_eq
      have hdir := dir_mkLinks g.dir g.red (holeParent c) (ptr g.sib) g.elem.2
        (hfg.ptr_ne (by simp))
      have huncle : m.isRed (ptr g.sib) = some g.sib.isRed := by
        refine Holds.isRed_eq (c := ⟨g.dir.opp, g.red, g.elem,
          side f.dir f.red f.elem .nil f.sib⟩ :: c) ?_
        rwa [Holds.focus_far]
      rw [ptr_side] at hg hdir
      simp only [holePlace_cons, hf, parent_mkLinks, holeParent_cons, hg, hdir,
        child_opp_mkLinks, huncle, bind, Option.bind_some, red_mkLinks, Option.getD_some,
        Mixed, Bool.and_eq_true, Bool.not_eq_true', decide_eq_true_eq, and_assoc]

/-- **Insertion keeps the tree valid.** A fresh node inserted at the slot found for an
absent `fd` adds that `fd` in its position; the slot still holds the new node exactly when the
insertion did not start with a mixed rotation. -/
theorem ValidTree.insert {m : RbMem} {T : ColTree RbElem} {fd : ℤ} {a : Addr}
    {r : RbPlace × Ptr} (h : ValidTree m T) (hp : m.rbProbe .root fd = some r)
    (habs : m.lookup fd = none) (hfresh : m.node a = none) :
    ∃ m' T' A B, (m.makeRbnode a fd).rbInsert a r.1 r.2 = some m' ∧ ValidTree m' T' ∧
      T.toList = A ++ B ∧ T'.toList = A ++ (a, fd) :: B ∧
      (m'.load r.1 = some (some a) ↔ m.mixedInsert fd = false) := by
  obtain ⟨c, t, rfl, hp', hb, ht⟩ := h.probe fd
  obtain rfl : r = (holePlace c, holeParent c) := by rw [hp] at hp'; exact Option.some.inj hp'
  have hload := (holds_plug.mp h.holds).1.load
  have hlook : m.lookup fd = ptr t := by simp [RbMem.lookup, hp, hload]
  obtain rfl : t = .nil := by
    rcases ht with rfl | ⟨red, b, l, r, rfl⟩
    · rfl
    · rw [habs] at hlook
      simp [ptr] at hlook
  have hdead : a ∉ addrs (plug c .nil) := fun ha => by
    have := (h.live a).mpr ha
    simp [hfresh] at this
  have hctx : a ∉ ctxAddrs c := fun hac => hdead (by
    rw [addrs, ((toList_plug_perm c .nil).map Prod.fst).mem_iff, List.map_append]
    exact List.mem_append_right _ hac)
  have htop : c.length ≤ (m.makeRbnode a fd).top := by
    have h₁ := length_ctx_le c .nil
    have h₂ := h.length_le
    have h₃ : m.top ≤ (m.makeRbnode a fd).top := le_max_left _ _
    omega
  obtain ⟨m', T', e', hT', hrb, hl, hslot, hsame⟩ :=
    rbInsert_spec (h.holds.makeRbnode hdead fd) h.redBlack
      (show (m.makeRbnode a fd).node a = some ⟨true, none, none, none, fd⟩ from
        Function.update_self ..) hctx htop
  have haddrs : ∀ b, b ∈ addrs T' ↔ b = a ∨ b ∈ addrs (plug c .nil) := by
    intro b
    simp only [addrs, hl, toList_plug, toList, List.append_nil, List.map_append,
      List.map_cons, List.mem_append, List.mem_cons]
    tauto
  refine ⟨m', T', before c, after c, e', ⟨hT', hrb, ?_, fun b => ?_, fun b hb' => ?_⟩,
    by simp [toList_plug, toList], hl, ?_⟩
  · have hord := h.ordered
    rw [toList_plug, toList, List.append_nil, FdOrdered, List.pairwise_append] at hord
    rw [hl, FdOrdered, List.pairwise_append, List.pairwise_cons]
    refine ⟨hord.1, ⟨hb.gt, hord.2.1⟩, fun x hx y hy => ?_⟩
    rcases List.mem_cons.mp hy with rfl | hy
    · exact hb.lt x hx
    · exact hord.2.2 x hx y hy
  · rw [hsame.dom, haddrs, ← h.live b]
    by_cases hba : b = a
    · subst hba
      simp [RbMem.makeRbnode]
    · simp [RbMem.makeRbnode, hba]
  · rw [hsame.top]
    rcases (haddrs b).mp hb' with rfl | hb'
    · exact lt_of_lt_of_le (Nat.lt_succ_self _) (le_max_right _ _)
    · exact lt_of_lt_of_le (h.below b hb') (le_max_left _ _)
  · rw [hslot, ← h.mixedInsert_iff hp, Bool.not_eq_true]

/-! ### Extraction -/

/-- Which element stands in a node does not matter to the colours. -/
theorem balanced_elem {red : Bool} {l r : ColTree RbElem} {x : RbElem} {n : ℕ} (y : RbElem)
    (h : Balanced (.node red l x r) n) : Balanced (.node red l y r) n := by
  cases red <;> exact h

/-- Which element stands in a frame does not matter to what fits the hole. -/
theorem fits_elem {p c : Ctx RbElem} {d : Dir} {red : Bool} {x : RbElem} {s : ColTree RbElem}
    {n : ℕ} (y : RbElem) (h : Fits (p ++ ⟨d, red, x, s⟩ :: c) n) :
    Fits (p ++ ⟨d, red, y, s⟩ :: c) n := by
  induction p generalizing n with
  | nil => exact h
  | cons f p ih =>
      obtain ⟨e, col, z, t⟩ := f
      rw [List.cons_append] at h ⊢
      cases col with
      | true =>
          obtain ⟨hs, hb, hh, hne, hf⟩ := fits_cons_red.mp h
          refine fits_cons_red.mpr ⟨hs, hb, ?_, by simp, ih hf⟩
          cases p <;> exact hh
      | false =>
          obtain ⟨hs, hf⟩ := fits_cons_black.mp h
          exact fits_cons_black.mpr ⟨hs, ih hf⟩

/-- Freeing a node outside the tree does not disturb the tree. -/
theorem Holds.free {m : RbMem} {T : ColTree RbElem} {a : Addr} (h : Holds m T)
    (ha : a ∉ addrs T) : Holds (m.free a) T := by
  refine ⟨h.root, h.repr.frame fun b hb => ?_, h.nodup⟩
  refine Function.update_of_ne ?_ _ _
  rintro rfl
  exact ha hb

/-- Once the node taken out is freed, a restored tree is valid. -/
theorem ValidTree.of_restored {m m' : RbMem} {T T' : ColTree RbElem} {A B : List RbElem}
    {a : Addr} {fd : ℤ} (h : ValidTree m T) (hr : Restored m m' (A ++ B) T')
    (hT : T.toList = A ++ (a, fd) :: B) : ValidTree (m'.free a) T' := by
  have hnd : (A.map Prod.fst ++ a :: B.map Prod.fst).Nodup := by
    simpa [addrs, hT] using h.holds.nodup
  have hmem : ∀ b, b ∈ addrs T' ↔ b ∈ A.map Prod.fst ∨ b ∈ B.map Prod.fst := by
    intro b
    rw [addrs, hr.toList, List.map_append, List.mem_append]
  have hmem' : ∀ b, b ∈ addrs T ↔ b ∈ A.map Prod.fst ∨ b = a ∨ b ∈ B.map Prod.fst := by
    intro b
    rw [addrs, hT, List.map_append, List.map_cons, List.mem_append, List.mem_cons]
  have hout : a ∉ addrs T' := by
    rw [hmem, not_or]
    rw [List.nodup_append', List.nodup_cons, List.disjoint_cons_right] at hnd
    exact ⟨hnd.2.2.1, hnd.2.1.1⟩
  refine ⟨hr.holds.free hout, hr.redBlack, ?_, fun b => ?_, fun b hb => ?_⟩
  · rw [hr.toList]
    have hord := h.ordered
    rw [hT] at hord
    exact hord.sublist (List.Sublist.append_left (List.sublist_cons_self _ _) _)
  · by_cases hba : b = a
    · subst hba
      simpa [RbMem.free] using hout
    · have hb : (m'.free a).node b = m'.node b := Function.update_of_ne hba _ _
      rw [hb, hr.same.dom, h.live, hmem, hmem']
      tauto
  · have hb' : b ∈ addrs T := (hmem' b).mpr (((hmem b).mp hb).imp_right .inr)
    simpa [RbMem.free, hr.same.top] using h.below b hb'

/-- A red leaf is unlinked without regard to the parent given. -/
theorem unlink_redLeaf {m : RbMem} {a : Addr} {par par' : Ptr} {place : RbPlace} {n : RbLinks}
    (ha : m.node a = some n) (hl : n.left = none) (hr : n.right = none) (hred : n.red = true) :
    m.unlink place par a = m.unlink place par' a := by
  simp [RbMem.unlink, ha, hl, hr, hred, RbMem.setParentIf]

/-- Reading `adjacentBlackPred` at a known position: a left child without a right child
is red. -/
theorem ValidTree.red_of_adjacent {m : RbMem} {c : Ctx RbElem} {red redp : Bool} {a : Addr}
    {fd : ℤ} {y : RbElem} {L r : ColTree RbElem}
    (h : ValidTree m (plug c (.node red (.node redp L y .nil) (a, fd) r)))
    (ha : m.lookup fd = some a) (hr : r ≠ .nil) (hok : m.adjacentBlackPred fd = false) :
    redp = true := by
  have hx := Holds.node_eq (c := c) (d := .left) h.holds
  have hy := Holds.node_eq (c := ⟨.left, red, (a, fd), r⟩ :: c) (d := .left) (x := y) h.holds
  obtain ⟨redr, z, l', r', rfl⟩ := exists_side hr .left
  simpa [RbMem.adjacentBlackPred, ha, hx, mkLinks, ptr, side, hy] using hok

/-- The keys in the left subtree are smaller. -/
theorem ValidTree.left_lt {m : RbMem} {c : Ctx RbElem} {red : Bool} {x : RbElem}
    {l r : ColTree RbElem} (h : ValidTree m (plug c (.node red l x r))) :
    ∀ y ∈ l.toList, y.2 < x.2 := by
  have hord := h.ordered
  rw [toList_plug, FdOrdered, List.pairwise_append] at hord
  have hmid := (List.pairwise_append.mp hord.1).2.1
  rw [toList, List.pairwise_append] at hmid
  exact fun y hy => hmid.2.2 y hy x (by simp)

/-- Removing a node with at most one child. -/
theorem ValidTree.extract_one {m : RbMem} {c : Ctx RbElem} {red : Bool} {fd : ℤ} {a : Addr}
    {l r son : ColTree RbElem} {d : Dir} (h : ValidTree m (plug c (.node red l (a, fd) r)))
    (heq : ColTree.node red l (a, fd) r = side d red (a, fd) son .nil)
    (hson : l.toList ++ r.toList = son.toList) (hnot : ¬(l ≠ .nil ∧ r ≠ .nil)) :
    ∃ m' T' A B, m.rbExtract (holePlace c) (holeParent c) = some (a, m') ∧
      ValidTree (m'.free a) T' ∧
      (plug c (.node red l (a, fd) r)).toList = A ++ (a, fd) :: B ∧ T'.toList = A ++ B := by
  have hload := (holds_plug.mp h.holds).1.load
  have hx := Holds.node_eq (c := c) (d := .left) h.holds
  have hlen := h.length_le
  have hctx := length_ctx_le c (.node red l (a, fd) r)
  simp only [toList, List.length_append, List.length_cons] at hctx
  obtain ⟨n, hfit, hbal, -⟩ := fits_of_isRedBlack h.redBlack
  have hcond : ¬((mkLinks .left red (holeParent c) (ptr l) (ptr r) fd).left.isSome ∧
      (mkLinks .left red (holeParent c) (ptr l) (ptr r) fd).right.isSome) := by
    cases l <;> cases r <;> simp_all [mkLinks, ptr]
  have hh := h.holds
  rw [heq] at hh hbal
  obtain ⟨m', T', e', hr'⟩ := hh.unlink hfit hbal (by omega)
  have hT : (plug c (.node red l (a, fd) r)).toList =
      (before c ++ l.toList) ++ (a, fd) :: (r.toList ++ after c) := by
    simp [toList_plug, toList]
  have hT' : (plug c son).toList = (before c ++ l.toList) ++ (r.toList ++ after c) := by
    simp [toList_plug, ← hson]
  rw [hT'] at hr'
  refine ⟨m', T', _, _, ?_, h.of_restored hr' hT, hT, hr'.toList⟩
  simp only [RbMem.rbExtract, hload, ptr_node, hx, hcond, bind, Option.bind_some, if_false, e']

/-- **Extraction keeps the tree valid.** `rb_extract` at the slot found for `fd` returns
its node and leaves, once that node is freed, a valid tree with the other nodes in their
order, unless the node has two children and its left child is black without a right
child. -/
theorem ValidTree.extract {m : RbMem} {T : ColTree RbElem} {fd : ℤ} {a : Addr}
    {q : RbPlace × Ptr} (h : ValidTree m T) (hp : m.rbProbe .root fd = some q)
    (ha : m.lookup fd = some a) (hok : m.adjacentBlackPred fd = false) :
    ∃ m' T' A B, m.rbExtract q.1 q.2 = some (a, m') ∧ ValidTree (m'.free a) T' ∧
      T.toList = A ++ (a, fd) :: B ∧ T'.toList = A ++ B := by
  obtain ⟨c, red, l, r, rfl, hp', -⟩ := h.position ha
  obtain rfl : q = (holePlace c, holeParent c) := by rw [hp] at hp'; exact Option.some.inj hp'
  have hload := (holds_plug.mp h.holds).1.load
  have hx := Holds.node_eq (c := c) (d := .left) h.holds
  have hlen := h.length_le
  have hctx := length_ctx_le c (.node red l (a, fd) r)
  simp only [toList, List.length_append, List.length_cons] at hctx
  -- with at most one child the node is unlinked where it is
  by_cases hr : r = .nil
  · subst hr
    exact h.extract_one (d := .left) rfl (by simp [toList]) (by simp)
  by_cases hl : l = .nil
  · subst hl
    exact h.extract_one (d := .right) rfl (by simp [toList]) (by simp)
  -- otherwise it trades places with its predecessor first
  obtain ⟨m₁, p, redp, L, y, par, e₁, hpar, rfl, hpath, h₁, hs₁⟩ :=
    swapWithPredecessor_spec h.holds hl h.left_lt hlen
  obtain ⟨k, hfit', hbal', -⟩ := fits_of_isRedBlack
    (c := p ++ ⟨.left, red, (a, fd), r⟩ :: c) (t := .node redp L y .nil)
    (by rw [plug_append]; exact h.redBlack)
  have hplen := length_ctx_le p (.node redp L y .nil)
  simp only [toList, List.length_append, List.length_cons] at hplen
  obtain ⟨m', T', e', hr'⟩ := Holds.unlink (d := .left) h₁ (fits_elem y hfit')
    (balanced_elem (a, fd) hbal')
    (by simp only [List.length_append, List.length_cons, hs₁.top]; omega)
  have hunl : m₁.unlink (holePlace (p ++ ⟨.left, red, y, r⟩ :: c)) par a = some m' := by
    by_cases hpn : p = []
    · subst hpn
      obtain rfl := h.red_of_adjacent ha hr hok
      have hn := Holds.node_eq (d := .left) h₁
      obtain ⟨hLb, -, hLn, hn0⟩ := hbal'
      obtain rfl : k = 0 := hn0
      obtain rfl : L = .nil := by
        cases L with
        | nil => rfl
        | node b _ _ _ =>
            obtain rfl : b = false := hLb
            obtain ⟨j, hj, -⟩ := hLn
            simp at hj
      rw [← e']
      exact unlink_redLeaf hn rfl rfl rfl
    · rw [hpar, if_neg hpn]
      exact e'
  have hT : (plug c (.node red (plug p (.node redp L y .nil)) (a, fd) r)).toList =
      (before c ++ before p ++ L.toList ++ [y]) ++ (a, fd) :: (r.toList ++ after c) := by
    simp [toList_plug, toList, hpath.after_eq]
  have hT' : (plug (p ++ ⟨.left, red, y, r⟩ :: c) L).toList =
      (before c ++ before p ++ L.toList ++ [y]) ++ (r.toList ++ after c) := by
    simp [plug_append, plug, side, toList_plug, toList, hpath.after_eq]
  have hr'' := hr'.of_same hs₁
  rw [hT'] at hr''
  refine ⟨m', T', _, _, ?_, h.of_restored hr'' hT, hT, hr''.toList⟩
  have hcond : (mkLinks .left red (holeParent c) (ptr (plug p (.node redp L y .nil)))
      (ptr r) fd).left.isSome ∧
      (mkLinks .left red (holeParent c) (ptr (plug p (.node redp L y .nil))) (ptr r)
        fd).right.isSome := by
    obtain ⟨b₁, z₁, s₁, t₁, hz₁⟩ := exists_side hl .left
    obtain ⟨b₂, z₂, s₂, t₂, hz₂⟩ := exists_side hr .left
    rw [hz₁, hz₂]
    simp [mkLinks]
  simp only [RbMem.rbExtract, hload, ptr_node, hx, hcond, fd_mkLinks, and_self, bind,
    Option.bind_some, if_true, e₁, hunl]

/-! ### The finite map -/

/-- Two keys of a valid tree have different nodes. -/
theorem ValidTree.lookup_inj {m : RbMem} {T : ColTree RbElem} (h : ValidTree m T) {fd fd' : ℤ}
    {a : Addr} (h₁ : m.lookup fd = some a) (h₂ : m.lookup fd' = some a) : fd = fd' := by
  obtain ⟨c, red, l, r, rfl, -⟩ := h.position h₁
  obtain ⟨c', red', l', r', heq, -⟩ := h.position h₂
  have hn := Holds.node_eq (c := c) (d := .left) h.holds
  have hh := h.holds
  rw [heq] at hh
  have hn' := Holds.node_eq (c := c') (d := .left) hh
  simp only [mkLinks, hn, Option.some.injEq, RbLinks.mk.injEq] at hn'
  exact hn'.2.2.2.2

/-- The live nodes are those found under some key. -/
theorem ValidTree.live_iff {m : RbMem} {T : ColTree RbElem} (h : ValidTree m T) {a : Addr} :
    (m.node a).isSome ↔ ∃ fd, m.lookup fd = some a := by
  simp only [h.live, addrs, List.mem_map, Prod.exists, h.lookup_iff]
  constructor
  · rintro ⟨b, fd, hm, rfl⟩
    exact ⟨fd, hm⟩
  · rintro ⟨fd, hm⟩
    exact ⟨a, fd, hm, rfl⟩

/-- The node found under `fd` stores `fd`. -/
theorem ValidTree.fd_of_lookup {m : RbMem} {T : ColTree RbElem} (h : ValidTree m T) {fd : ℤ}
    {a : Addr} (ha : m.lookup fd = some a) : (m.node a).map RbLinks.fd = some fd := by
  obtain ⟨c, red, l, r, rfl, -⟩ := h.position ha
  rw [Holds.node_eq (c := c) (d := .left) h.holds]
  rfl

/-- Read as a finite map, inserting adds one binding. -/
theorem ValidTree.lookup_insert {m m' : RbMem} {T T' : ColTree RbElem} {A B : List RbElem}
    {a : Addr} {fd : ℤ} (h : ValidTree m T) (h' : ValidTree m' T')
    (habs : m.lookup fd = none) (hT : T.toList = A ++ B)
    (hT' : T'.toList = A ++ (a, fd) :: B) :
    m'.lookup = Function.update m.lookup fd (some a) := by
  funext fd'
  ext b
  rw [h'.lookup_iff, hT']
  by_cases hfd : fd' = fd
  · subst hfd
    have hno : ∀ b, (b, fd') ∉ A ++ B := fun b hb => by
      rw [← hT, ← h.lookup_iff, habs] at hb
      simp at hb
    simp only [List.mem_append, not_or] at hno
    simp [hno, eq_comm]
  · rw [Function.update_of_ne hfd, h.lookup_iff, hT]
    simp [hfd]

/-- Read as a finite map, extracting removes one binding. -/
theorem ValidTree.lookup_extract {m m' : RbMem} {T T' : ColTree RbElem} {A B : List RbElem}
    {a : Addr} {fd : ℤ} (h : ValidTree m T) (h' : ValidTree m' T')
    (hT : T.toList = A ++ (a, fd) :: B) (hT' : T'.toList = A ++ B) :
    m'.lookup = Function.update m.lookup fd none := by
  funext fd'
  ext b
  rw [h'.lookup_iff, hT']
  by_cases hfd : fd' = fd
  · subst hfd
    have hord := h.ordered
    rw [hT, FdOrdered, List.pairwise_append, List.pairwise_cons] at hord
    have hA : (b, fd') ∉ A := fun hb => lt_irrefl fd' (hord.2.2 _ hb (a, fd') (by simp))
    have hB : (b, fd') ∉ B := fun hb => lt_irrefl fd' (hord.2.1.1 (b, fd') hb)
    simp [hA, hB]
  · rw [Function.update_of_ne hfd, h.lookup_iff, hT]
    simp [hfd]

/-- A slot that holds a node is the hole of the context around this node. -/
theorem ValidTree.of_load {m : RbMem} {T : ColTree RbElem} (h : ValidTree m T) {a : Addr}
    {place : RbPlace} (hload : m.load place = some (some a)) :
    ∃ c red fd A B, holePlace c = place ∧ Holds m (plug c (side .left red (a, fd) A B)) := by
  cases place with
  | root =>
      have hroot : ptr T = some a := h.holds.root.symm.trans (Option.some.inj hload)
      obtain ⟨red, ⟨b, fd⟩, A, B, rfl⟩ :=
        exists_side (t := T) (by rintro rfl; simp at hroot) .left
      obtain rfl : b = a := by simpa using hroot
      exact ⟨[], red, fd, A, B, rfl, h.holds⟩
  | child b d =>
      obtain ⟨n, hn, hd⟩ : ∃ n, m.node b = some n ∧ n.child d = some a := by
        simpa [RbMem.load] using hload
      obtain ⟨fd', hb⟩ := (h.live_iff (a := b)).mp (by simp [hn])
      obtain ⟨c, red, l, r, hT, -, -⟩ := h.position hb
      have hh : Holds m (plug c (.node red l (b, fd') r)) := hT ▸ h.holds
      -- seen from `b`, the child in direction `d` is the node `a`
      obtain ⟨near, far, hside⟩ : ∃ near far,
          ColTree.node red l (b, fd') r = side d red (b, fd') near far := by
        cases d with
        | left => exact ⟨l, r, rfl⟩
        | right => exact ⟨r, l, rfl⟩
      rw [hside] at hh
      have hbn := hh.node_eq
      rw [hn, Option.some.injEq] at hbn
      rw [hbn, child_mkLinks] at hd
      obtain ⟨reda, ⟨a', fd⟩, A, B, rfl⟩ :=
        exists_side (t := near) (by rintro rfl; simp at hd) .left
      obtain rfl : a' = a := by simpa using hd
      exact ⟨⟨d, red, (b, fd'), far⟩ :: c, reda, fd, A, B, rfl, hh⟩

/-- A node in a slot is live. -/
theorem ValidTree.live_of_load {m : RbMem} {T : ColTree RbElem} (h : ValidTree m T) {a : Addr}
    {place : RbPlace} (hload : m.load place = some (some a)) : (m.node a).isSome = true := by
  obtain ⟨c, red, fd, A, B, -, hh⟩ := h.of_load hload
  rw [hh.node_eq]
  rfl

/-- **Only one slot holds a node.** A slot that holds the node of `fd` is the one that
`rb_probe` finds for `fd`. -/
theorem ValidTree.slot_unique {m : RbMem} {T : ColTree RbElem} (h : ValidTree m T) {fd : ℤ}
    {a : Addr} {place : RbPlace} (hload : m.load place = some (some a))
    (ha : m.lookup fd = some a) : m.rbProbe .root fd = some (place, place.holder) := by
  obtain ⟨c, red, l, r, hT, hp, -⟩ := h.position ha
  obtain ⟨c', red', fd', A, B, rfl, hh'⟩ := h.of_load hload
  have hh : Holds m (plug c (side .left red (a, fd) l r)) := hT ▸ h.holds
  have hx := hh.node_eq
  rw [hh'.node_eq, Option.some.injEq] at hx
  suffices hplace : holePlace c' = holePlace c by rw [hp, hplace, holder_holePlace]
  -- the two slots are in the parent of the node
  have hpar : holeParent c' = holeParent c := by simpa using congrArg RbLinks.parent hx
  cases c with
  | nil =>
      cases c' with
      | nil => rfl
      | cons f' c' => cases hpar
  | cons f c =>
      cases c' with
      | nil => cases hpar
      | cons f' c' =>
          rw [holeParent_cons, holeParent_cons, Option.some.injEq] at hpar
          have hf := Holds.node_eq (c := c) (d := f.dir) hh
          have hf' := Holds.node_eq (c := c') (d := f'.dir) hh'
          rw [hpar, hf, Option.some.injEq] at hf'
          rw [holePlace_cons, holePlace_cons, hpar]
          by_cases hdir : f'.dir = f.dir
          · rw [hdir]
          · rw [(Dir.eq_or_eq_opp f.dir f'.dir).resolve_left hdir] at hf'
            have h₁ := congrArg (fun w => w.child f.dir.opp) hf'
            simp only [child_mkLinks, child_opp_mkLinks, ptr_side] at h₁
            exact absurd h₁ (Holds.ptr_ne (c := c) (d := f.dir) hh (by simp))

/-! ### Writing to a slot -/

section

variable {m m' : RbMem} {p : Ptr} {place : RbPlace}

/-- What has been written to a slot is there. -/
theorem RbMem.load_store (h : m.store p place = some m') : m'.load place = some p := by
  cases place with
  | root => exact Option.some.inj h ▸ rfl
  | child b d =>
      obtain ⟨n, -, rfl⟩ := Option.map_eq_some_iff.mp h
      cases d <;> simp [RbMem.load, RbLinks.setChild, RbLinks.child]

/-- Writing to a slot does not touch the others. -/
theorem RbMem.load_store_ne (h : m.store p place = some m') {q : RbPlace} (hne : q ≠ place) :
    m'.load q = m.load q := by
  cases place with
  | root =>
      obtain rfl := Option.some.inj h
      cases q with
      | root => exact absurd rfl hne
      | child b d => rfl
  | child b d =>
      obtain ⟨n, hn, rfl⟩ := Option.map_eq_some_iff.mp h
      cases q with
      | root => rfl
      | child b' d' =>
          by_cases hb : b' = b
          · subst hb
            cases d <;> cases d' <;>
              simp_all [RbMem.load, RbLinks.setChild, RbLinks.child]
          · simp [RbMem.load, Function.update_of_ne hb]

/-- Writing to a slot does not touch the `fd`s of the live nodes. -/
theorem RbMem.fd_store (h : m.store p place = some m') (a : Addr) :
    (m'.node a).map RbLinks.fd = (m.node a).map RbLinks.fd := by
  cases place with
  | root => exact Option.some.inj h ▸ rfl
  | child b d =>
      obtain ⟨n, hn, rfl⟩ := Option.map_eq_some_iff.mp h
      by_cases hb : a = b
      · subst hb
        cases d <;> simp [hn, RbLinks.setChild]
      · simp [Function.update_of_ne hb]

/-- **Writing a node of the tree to a second slot** leaves no valid tree. -/
theorem ValidTree.store_twice {T : ColTree RbElem} (h : ValidTree m T) (fd : ℤ) {a : Addr}
    (ha : m.lookup fd = some a) (hne : m.load place ≠ some (some a))
    (hst : m.store (some a) place = some m') : ¬ m'.Valid := by
  rintro ⟨T', h'⟩
  obtain ⟨c, t, -, hp, -, -⟩ := h.probe fd
  have hload : m.load (holePlace c) = some (some a) := by
    rw [RbMem.lookup, hp, Option.bind_some, Option.join_eq_some_iff] at ha
    exact ha
  have hother : holePlace c ≠ place := fun hc => hne (hc ▸ hload)
  have hfd : (m'.node a).map RbLinks.fd = some fd :=
    (RbMem.fd_store hst a).trans (h.fd_of_lookup ha)
  obtain ⟨n, hn, -⟩ := Option.map_eq_some_iff.mp hfd
  obtain ⟨fd', ha'⟩ := (h'.live_iff (a := a)).mp (by simp [hn])
  -- both slots would be the one that the search finds
  have h₁ := h'.slot_unique ((RbMem.load_store_ne hst hother).trans hload) ha'
  have h₂ := h'.slot_unique (RbMem.load_store hst) ha'
  exact hother (congrArg Prod.fst (Option.some.inj (h₁.symm.trans h₂)))

/-- **Writing a freed node to a slot** leaves no valid tree. -/
theorem not_valid_of_store_freed {a : Addr} (ha : m.node a = none)
    (hst : m.store (some a) place = some m') : ¬ m'.Valid := by
  rintro ⟨T', h'⟩
  have hlive := h'.live_of_load (RbMem.load_store hst)
  have hfd := RbMem.fd_store hst a
  rw [ha, Option.map_none, Option.map_eq_none_iff] at hfd
  simp [hfd] at hlive

end

/-! ### Sequences of insertions and extractions -/

/-- A call on the tree: `rb_insert` of a new node made at address `a`, or `rb_extract` of
the node of `fd`, which is then freed. -/
inductive RbOp
  | insert (a : Addr) (fd : ℤ)
  | extract (fd : ℤ)
  deriving DecidableEq

/-- The callers' side: an absent `fd` and an unused address for an insertion, a present
`fd` for an extraction. -/
def RbOp.Allowed (m : RbMem) : RbOp → Prop
  | .insert a fd => m.lookup fd = none ∧ m.node a = none
  | .extract fd => (m.lookup fd).isSome

instance (m : RbMem) (op : RbOp) : Decidable (op.Allowed m) := by
  cases op <;> unfold RbOp.Allowed <;> infer_instance

/-- The extraction does not meet a black predecessor that is the left child itself. -/
def RbOp.Apart (m : RbMem) : RbOp → Prop
  | .insert _ _ => True
  | .extract fd => m.adjacentBlackPred fd = false

instance (m : RbMem) (op : RbOp) : Decidable (op.Apart m) := by
  cases op <;> unfold RbOp.Apart <;> infer_instance

/-- Run a call on the place and parent that `rb_probe` returns for its `fd`. -/
def RbOp.exec (m : RbMem) : RbOp → Option RbMem
  | .insert a fd => do
      let (place, parent) ← m.rbProbe .root fd
      (m.makeRbnode a fd).rbInsert a place parent
  | .extract fd => do
      let (place, parent) ← m.rbProbe .root fd
      let (a, m) ← m.rbExtract place parent
      some (m.free a)

/-- Run a sequence of calls. -/
def execAll (m : RbMem) : List RbOp → Option RbMem
  | [] => some m
  | op :: ops => (op.exec m).bind fun m => execAll m ops

/-- Every call of the sequence meets `P` in the state it is made in. -/
def EachStep (P : RbMem → RbOp → Prop) (m : RbMem) : List RbOp → Prop
  | [] => True
  | op :: ops => P m op ∧ match op.exec m with
      | none => True
      | some m' => EachStep P m' ops

instance EachStep.instDecidable {P : RbMem → RbOp → Prop} [∀ m op, Decidable (P m op)] :
    ∀ m ops, Decidable (EachStep P m ops)
  | _, [] => .isTrue trivial
  | m, op :: ops =>
      match h : op.exec m with
      | none => decidable_of_iff (P m op) (by simp [EachStep, h])
      | some m' =>
          have := EachStep.instDecidable (P := P) m' ops
          decidable_of_iff (P m op ∧ EachStep P m' ops) (by simp [EachStep, h])

/-- A memory without nodes holds the empty tree. -/
theorem RbMem.validTree_nil {m : RbMem} (hroot : m.root = none) (hnode : ∀ a, m.node a = none) :
    ValidTree m .nil :=
  ⟨⟨hroot, trivial, by simp [addrs, toList]⟩, ⟨rfl, 0, rfl⟩,
    by simp [FdOrdered, toList], by simp [hnode, addrs, toList], by simp [addrs, toList]⟩

/-- The empty memory is valid. -/
theorem RbMem.valid_empty : RbMem.empty.Valid :=
  ⟨.nil, RbMem.validTree_nil rfl fun _ => rfl⟩

/-- One allowed call, apart from the second condition, returns and keeps the tree valid. -/
theorem RbOp.exec_valid {m : RbMem} {op : RbOp} (h : m.Valid) (hall : op.Allowed m)
    (hok : op.Apart m) : ∃ m', op.exec m = some m' ∧ m'.Valid := by
  obtain ⟨T, hT⟩ := h
  cases op with
  | insert a fd =>
      obtain ⟨c, t, -, hp, -, -⟩ := hT.probe fd
      obtain ⟨m', T', A, B, e', h', -, -, -⟩ := hT.insert hp hall.1 hall.2
      exact ⟨m', by simp only [RbOp.exec, hp, bind, Option.bind_some, e'], T', h'⟩
  | extract fd =>
      obtain ⟨a, ha⟩ := Option.isSome_iff_exists.mp hall
      obtain ⟨c, t, -, hp, -, -⟩ := hT.probe fd
      obtain ⟨m', T', A, B, e', h', -, -⟩ := hT.extract hp ha hok
      exact ⟨_, by simp only [RbOp.exec, hp, bind, Option.bind_some, e'], T', h'⟩

/-- **Every sequence of calls, apart from the second condition, keeps the tree valid.**
After each of its calls, that is after every initial part of the sequence, the tree is a
valid red-black tree, and no call fails. -/
theorem execAll_valid {ops : List RbOp} {m : RbMem} (hm : m.Valid)
    (h : EachStep (fun m op => op.Allowed m ∧ op.Apart m) m ops) (k : ℕ) :
    ∃ m', execAll m (ops.take k) = some m' ∧ m'.Valid := by
  induction ops generalizing m k with
  | nil => exact ⟨m, by simp [execAll], hm⟩
  | cons op ops ih =>
      cases k with
      | zero => exact ⟨m, rfl, hm⟩
      | succ k =>
          obtain ⟨m₁, e₁, h₁⟩ := op.exec_valid hm h.1.1 h.1.2
          have hrest := h.2
          rw [e₁] at hrest
          obtain ⟨m', e', h'⟩ := ih h₁ hrest k
          exact ⟨m', by simp only [List.take_succ_cons, execAll, e₁, Option.bind_some, e'], h'⟩

/-- **The tree under any history.** Starting from the empty tree, after every call of
every sequence of insertions and extractions that avoid the second condition, the tree is
a valid red-black tree, and no call fails. -/
theorem rbTree_valid_of_apart (ops : List RbOp)
    (h : EachStep (fun m op => op.Allowed m ∧ op.Apart m) RbMem.empty ops) (k : ℕ) :
    ∃ m, execAll RbMem.empty (ops.take k) = some m ∧ m.Valid :=
  execAll_valid RbMem.valid_empty h k

/-- Removing the root of three nodes, whose red left child is its predecessor. -/
theorem rbTree_valid_of_apart_redPred :
    EachStep (fun m op => op.Allowed m ∧ op.Apart m) RbMem.empty
      [.insert 0 2, .insert 1 1, .insert 2 3, .extract 2] ∧
    ∃ m, execAll RbMem.empty
      ([.insert 0 2, .insert 1 1, .insert 2 3, .extract 2].take 4) = some m ∧ m.Valid := by
  have h : EachStep (fun m op => op.Allowed m ∧ op.Apart m) RbMem.empty
      [.insert 0 2, .insert 1 1, .insert 2 3, .extract 2] := by decide
  exact ⟨h, rbTree_valid_of_apart _ h 4⟩

/-- A live node stands at a position of the tree. -/
theorem ValidTree.at_live {m : RbMem} {T : ColTree RbElem} (h : ValidTree m T) {a : Addr}
    {n : RbLinks} (ha : m.node a = some n) :
    ∃ c red l r fd, T = plug c (.node red l (a, fd) r) ∧
      n = ⟨red, holeParent c, ptr l, ptr r, fd⟩ := by
  obtain ⟨fd, hfd⟩ := h.live_iff.mp (show (m.node a).isSome by simp [ha])
  obtain ⟨c, red, l, r, rfl, -⟩ := h.position hfd
  have hn := Holds.node_eq (c := c) (d := .left) h.holds
  exact ⟨c, red, l, r, fd, rfl, Option.some.inj (ha.symm.trans hn)⟩

/-- A tree of black height 0 is empty or a red leaf. -/
theorem balanced_zero {t : ColTree RbElem} (h : Balanced t 0) :
    t = .nil ∨ ∃ x, t = .node true .nil x .nil := by
  match t, h with
  | .nil, _ => exact .inl rfl
  | .node false _ _ _, ⟨_, hk, _⟩ => simp at hk
  | .node true l x r, ⟨hl, hr, hbl, hbr⟩ =>
      have hnil : ∀ s : ColTree RbElem, s.isRed = false → Balanced s 0 → s = .nil := by
        intro s hs hb
        by_contra hne
        obtain ⟨k, hk⟩ := exists_of_balanced_black hb hne hs
        simp at hk
      exact .inr ⟨x, by rw [hnil l hl hbl, hnil r hr hbr]⟩

/-- A node without a left child has on the right at most a red leaf. -/
theorem not_valid_of_short {m : RbMem} {a b : Addr} {n k : RbLinks} (ha : m.node a = some n)
    (hl : n.left = none) (hr : n.right = some b) (hb : m.node b = some k)
    (hk : k.red = false ∨ k.left ≠ none) : ¬ m.Valid := by
  rintro ⟨T, hT⟩
  obtain ⟨c, red, l, r, fd, rfl, rfl⟩ := hT.at_live ha
  obtain rfl : l = .nil := by
    cases l with
    | nil => rfl
    | node => simp [ptr] at hl
  obtain ⟨j, -, hbal, -⟩ := fits_of_isRedBlack hT.redBlack
  have hbr : Balanced r 0 := by
    cases red with
    | true =>
        obtain ⟨-, -, hnil, hbr⟩ := hbal
        rwa [balanced_nil.mp hnil] at hbr
    | false =>
        obtain ⟨i, -, hnil, hbr⟩ := hbal
        rwa [balanced_nil.mp hnil] at hbr
  obtain rfl | ⟨x, rfl⟩ := balanced_zero hbr
  · simp at hr
  · obtain rfl : x.1 = b := by simpa [ptr] using hr
    have hx := Holds.node_eq (c := ⟨.right, red, (a, fd), .nil⟩ :: c) (d := .left) (x := x)
      (A := .nil) (B := .nil) hT.holds
    rw [hb, Option.some.injEq] at hx
    subst hx
    simp [mkLinks] at hk

/-- Four insertions and the removal of the root, whose black left child is its predecessor:
the left side of the tree is then one black node short. -/
theorem rbTree_invalid_after_adjacent :
    ¬ ∀ ops : List RbOp, EachStep (fun m op => op.Allowed m) RbMem.empty ops →
      ∀ k, ∃ m, execAll RbMem.empty (ops.take k) = some m ∧ m.Valid := by
  intro h
  obtain ⟨m, hm, hv⟩ :=
    h [.insert 0 2, .insert 1 1, .insert 2 3, .insert 3 4, .extract 2] (by decide) 5
  have hobs : (execAll RbMem.empty
      [.insert 0 2, .insert 1 1, .insert 2 3, .insert 3 4, .extract 2]).map
        (fun m => (m.root, m.node 1, m.node 2)) =
      some (some 1, some ⟨false, none, none, some 2, 1⟩,
        some ⟨false, some 1, none, some 3, 3⟩) := by decide
  simp only [List.take] at hm
  simp only [hm, Option.map_some, Option.some.injEq, Prod.mk.injEq] at hobs
  exact not_valid_of_short hobs.2.1 rfl rfl hobs.2.2 (.inl rfl) hv

end IoEngine
