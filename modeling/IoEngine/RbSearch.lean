import IoEngine.RbAdjacent

/-!
# One Insertion, One Extraction

What a single call of `rb_insert` or `rb_extract` does to a valid tree, whatever the shape of
the tree. An insertion always keeps it valid. An extraction does not (`RbAdjacent`), but even
where it loses the parent of the node it removes it does not lose a node: the child links
still spell out a search tree of the other nodes.

## Main results

* `rbInsert_valid`: **insertion** adds the new node at its place and keeps the tree valid.
* `rbExtract_searchTree`: **extraction** returns the node of the `fd` and leaves a search tree
  of the others.
-/

open RedBlack RedBlack.ColTree RedBlack.Ctx

namespace IoEngine

/-! ### Insertion -/

/-- **Insertion of a fresh node.** For an `fd` that is not in the tree `rb_probe` returns a
place and a parent, at which `rb_insert` of a new node ends and leaves a valid tree: the old
nodes in their order, with the new one between the smaller and the greater ones. -/
theorem rbInsert_valid {m : RbMem} {T : ColTree RbElem} {fd : ℤ} {a : Addr} (h : ValidTree m T)
    (habs : fd ∉ T.toList.map Prod.snd) (hfresh : m.node a = none) :
    ∃ place parent m' T' A B, m.rbProbe .root fd = some (place, parent) ∧
      m.load place = some none ∧
      (m.makeRbnode a fd).rbInsert a place parent = some m' ∧ ValidTree m' T' ∧
      T.toList = A ++ B ∧ T'.toList = A ++ (a, fd) :: B ∧
      (∀ x ∈ A, x.2 < fd) ∧ ∀ x ∈ B, fd < x.2 := by
  have hlook : m.lookup fd = none := by
    by_contra hne
    obtain ⟨b, hb⟩ := Option.ne_none_iff_exists'.mp hne
    exact habs (List.mem_map.mpr ⟨_, h.lookup_iff.mp hb, rfl⟩)
  obtain ⟨c, t, rfl, hp, -, -⟩ := h.probe fd
  have hload := (holds_plug.mp h.holds).1.load
  obtain ⟨m', T', A, B, hrun, h', hT, hT', -⟩ := h.insert hp hlook hfresh
  have hord := h'.ordered
  rw [hT', FdOrdered, List.pairwise_append, List.pairwise_cons] at hord
  refine ⟨_, _, m', T', A, B, hp, ?_, hrun, h', hT, hT', fun x hx => ?_, hord.2.1.1⟩
  · rw [hload]
    simpa [RbMem.lookup, hp, hload] using hlook
  · exact hord.2.2 x hx (a, fd) List.mem_cons_self

/-- The tree of the fds 2 and 1. -/
def smallTree : RbMem where
  node a := if a = 0 then some ⟨false, none, some 1, none, 2⟩
    else if a = 1 then some ⟨true, some 0, none, none, 1⟩ else none
  root := some 0
  top := 2

/-- The example with two nodes is a valid tree. -/
theorem smallTree_valid :
    ValidTree smallTree (.node false (.node true .nil (1, 1) .nil) (0, 2) .nil) where
  holds := ⟨rfl, ⟨rfl, ⟨rfl, trivial, trivial⟩, trivial⟩, by decide⟩
  redBlack := ⟨rfl, 1, 0, rfl, ⟨rfl, rfl, rfl, rfl⟩, rfl⟩
  ordered := by simp [FdOrdered, toList]
  live a := by
    simp only [smallTree, addrs, toList, List.nil_append, List.map_append, List.map_cons,
      List.map_nil, List.mem_append, List.mem_cons, List.not_mem_nil, or_false]
    split
    · simp [*]
    · split <;> simp [*]
  below := by simp [addrs, toList, smallTree]

/-- Inserting 0 below its red parent 1. -/
theorem rbInsert_valid_small :
    smallTree.node 2 = none ∧ ∃ place parent m' T' A B,
      smallTree.rbProbe .root 0 = some (place, parent) ∧ smallTree.load place = some none ∧
      (smallTree.makeRbnode 2 0).rbInsert 2 place parent = some m' ∧ ValidTree m' T' ∧
      [(1, 1), (0, 2)] = A ++ B ∧ T'.toList = A ++ (2, 0) :: B ∧
      (∀ x ∈ A, x.2 < 0) ∧ ∀ x ∈ B, 0 < x.2 :=
  ⟨rfl, rbInsert_valid smallTree_valid (by decide) rfl⟩

/-! ### Extraction -/

/-- The child links below a node spell out the tree `t`, whatever the parent pointers. -/
def LinkedTree (m : RbMem) : ColTree RbElem → Prop
  | .nil => True
  | .node red l x r =>
      (∃ parent, m.node x.1 = some ⟨red, parent, ptr l, ptr r, x.2⟩) ∧
        LinkedTree m l ∧ LinkedTree m r

/-- **A search tree by child links**: from the root the child links spell out `T`, no node is
met twice, and the nodes are in the order of their `fd`s. -/
structure SearchTree (m : RbMem) (T : ColTree RbElem) : Prop where
  root : m.root = ptr T
  linked : LinkedTree m T
  nodup : (addrs T).Nodup
  ordered : FdOrdered T.toList

/-- The child links of a tree in memory spell it out. -/
theorem ReprTree.linked {m : RbMem} {parent : Ptr} {t : ColTree RbElem} (h : ReprTree m parent t) :
    LinkedTree m t := by
  induction t generalizing parent with
  | nil => trivial
  | node red l x r ihl ihr => exact ⟨⟨parent, h.1⟩, ihl h.2.1, ihr h.2.2⟩

/-- The child links spell out a tree if they do its root and its sides. -/
theorem linked_side {m : RbMem} {d : Dir} {red : Bool} {x : RbElem} {A B : ColTree RbElem} :
    LinkedTree m (side d red x A B) ↔
      (∃ parent, m.node x.1 = some (mkLinks d red parent (ptr A) (ptr B) x.2)) ∧
        LinkedTree m A ∧ LinkedTree m B := by
  cases d with
  | left => exact Iff.rfl
  | right =>
      simp only [side, LinkedTree, mkLinks]
      tauto

/-- A subtree in a context in memory is part of a tree by child links. -/
theorem ReprCtx.linked {m : RbMem} {c : Ctx RbElem} {t : ColTree RbElem}
    (hc : ReprCtx m (ptr t) c) (ht : LinkedTree m t) :
    m.root = ptr (plug c t) ∧ LinkedTree m (plug c t) := by
  induction c generalizing t with
  | nil => exact ⟨hc, ht⟩
  | cons f c ih =>
      obtain ⟨hf, hs, hrest⟩ := hc
      refine ih (t := side f.dir f.red f.elem t f.sib) ?_ (linked_side.mpr ⟨⟨_, hf⟩, ht, hs.linked⟩)
      rw [ptr_side]
      exact hrest

/-- `if (db) set_black(db)` on a subtree whose parent pointer is lost. -/
theorem ReprTree.blackenDb {m : RbMem} {parent : Ptr} {t : ColTree RbElem}
    (h : ReprTree m parent t) (hn : (addrs t).Nodup) :
    ∃ m', m.blackenDb (ptr t) = some m' ∧ ReprTree m' parent t.blacken ∧ m'.root = m.root ∧
      Changes m m' (addrs t) := by
  cases t with
  | nil => exact ⟨m, rfl, trivial, rfl, Changes.refl ..⟩
  | node red l x r =>
      obtain ⟨hx, hl, hr⟩ := h
      obtain ⟨m', hm', hx', hroot, hch⟩ := modify_spec hx fun n => { n with red := false }
      rw [addrs, toList, List.map_append, List.map_cons, List.nodup_middle,
        List.nodup_cons, List.mem_append, not_or] at hn
      refine ⟨m', hm', ⟨hx', hl.frame fun a ha => hch.node a ?_,
        hr.frame fun a ha => hch.node a ?_⟩, hroot, hch.mono (by simp [addrs, toList])⟩
      · rw [List.mem_singleton]
        rintro rfl
        exact hn.1.1 ha
      · rw [List.mem_singleton]
        rintro rfl
        exact hn.1.2 ha

/-- **Unlinking without the parent.** Where `rb_extract` has lost the parent, the subtree of
the removed node still takes its place. -/
theorem Holds.unlinkOrphan {m : RbMem} {c : Ctx RbElem} {x : RbElem} {L : ColTree RbElem}
    (h : Holds m (plug c (.node false L x .nil))) :
    ∃ m', m.unlink (holePlace c) none x.1 = some m' ∧
      m'.root = ptr (plug c L.blacken) ∧ LinkedTree m' (plug c L.blacken) := by
  obtain ⟨hc, ⟨hx, hL, -⟩, hs⟩ := holds_plug.mp h
  have hnd := (sep_side (d := .left) (B := .nil)).mp hs
  simp only [addrs, toList, List.map_nil, List.append_nil, List.cons_append,
    List.nodup_cons] at hnd
  obtain ⟨hnL, hnc, hdisj⟩ := List.nodup_append'.mp hnd.2
  have hson : (if (ptr L).isSome then ptr L else ptr .nil) = ptr L := by
    cases L <;> simp [ptr]
  -- the writes of the source, one after the other
  obtain ⟨m₁, e₁, hc₁, ch₁⟩ := hc.store hnc (ptr L)
  have hL₁ : ReprTree m₁ (some x.1) L :=
    hL.frame fun a ha => ch₁.node a fun hac => hdisj ha hac
  obtain ⟨m₂, e₂, hL₂, r₂, ch₂⟩ := hL₁.setParentIf hnL none
  obtain ⟨m₃, e₃, hL₃, r₃, ch₃⟩ := hL₂.blackenDb hnL
  have hc₃ : ReprCtx m₃ (ptr L.blacken) c := by
    rw [show ptr L.blacken = ptr L by cases L <;> rfl]
    refine (hc₁.frame r₂ fun a ha => ch₂.node a fun haL => hdisj haL ha).frame r₃ fun a ha => ?_
    exact ch₃.node a fun haL => hdisj haL ha
  refine ⟨m₃, ?_, hc₃.linked hL₃.linked⟩
  have hred : ∃ b, m₂.isRed (ptr L) = some b := by
    cases L with
    | nil => exact ⟨false, rfl⟩
    | node red l y r => exact ⟨red, by simp [RbMem.isRed, ptr, hL₂.1]⟩
  obtain ⟨b, hb⟩ := hred
  simp only [RbMem.unlink, hx, bind, Option.bind_some, hson, e₁, e₂, Bool.false_eq_true, if_false,
    fixDelete_none, hb, e₃]

/-- The extraction that loses the parent. -/
theorem ValidTree.extract_linked {m : RbMem} {T : ColTree RbElem} {fd : ℤ} {a : Addr}
    {q : RbPlace × Ptr} (h : ValidTree m T) (hp : m.rbProbe .root fd = some q)
    (ha : m.lookup fd = some a) (hadj : m.adjacentBlackPred fd = true) :
    ∃ m' T' A B, m.rbExtract q.1 q.2 = some (a, m') ∧ m'.root = ptr T' ∧ LinkedTree m' T' ∧
      T.toList = A ++ (a, fd) :: B ∧ T'.toList = A ++ B := by
  obtain ⟨c, red, l, r, rfl, hp', -⟩ := h.position ha
  obtain rfl : q = (holePlace c, holeParent c) := by rw [hp] at hp'; exact Option.some.inj hp'
  obtain ⟨hr, L, y, rfl⟩ := h.adjacent_shape ha hadj
  have hload := (holds_plug.mp h.holds).1.load
  have hx := Holds.node_eq (c := c) (d := .left) h.holds
  obtain ⟨m₁, p, redp, L', y', par, e₁, hpar, he, hpath, h₁, hs₁⟩ :=
    swapWithPredecessor_spec h.holds (by simp) h.left_lt h.length_le
  obtain rfl := hpath.eq_nil he
  obtain ⟨rfl, rfl, rfl, -⟩ := (ColTree.node.injEq ..).mp he
  obtain ⟨m', hunl, hroot, hlinked⟩ := h₁.unlinkOrphan
  refine ⟨m', _, before c ++ (L.toList ++ [y]), r.toList ++ after c, ?_, hroot, hlinked, ?_, ?_⟩
  · obtain ⟨redr, z, l', r', rfl⟩ := exists_side hr .left
    rw [if_pos rfl] at hpar
    subst hpar
    simp only [RbMem.rbExtract, hload, ptr_node, hx, mkLinks, bind, Option.bind_some, ptr_side,
      Option.isSome_some, and_self, if_true, e₁, hunl]
  · simp [toList_plug, toList]
  · simp [toList_plug, toList, plug, side]

/-- **Extraction leaves a search tree.** For every node of a valid tree, `rb_extract` at the
place and parent that `rb_probe` returns for its `fd` ends, returns that node, and leaves by
child links a search tree of the other nodes in their order. -/
theorem rbExtract_searchTree {m : RbMem} {T : ColTree RbElem} {fd : ℤ} {a : Addr}
    (h : ValidTree m T) (ha : (a, fd) ∈ T.toList) :
    ∃ place parent m' T' A B, m.rbProbe .root fd = some (place, parent) ∧
      m.rbExtract place parent = some (a, m') ∧ SearchTree m' T' ∧
      T.toList = A ++ (a, fd) :: B ∧ T'.toList = A ++ B := by
  have hlook := h.lookup_iff.mpr ha
  obtain ⟨c, t, -, hp, -, -⟩ := h.probe fd
  -- in both cases the links spell out the other nodes
  obtain ⟨m', T', A, B, hrun, hroot, hlinked, hT, hT'⟩ : ∃ m' T' A B,
      m.rbExtract (holePlace c) (holeParent c) = some (a, m') ∧ m'.root = ptr T' ∧
      LinkedTree m' T' ∧ T.toList = A ++ (a, fd) :: B ∧ T'.toList = A ++ B := by
    cases hadj : m.adjacentBlackPred fd with
    | true => exact h.extract_linked hp hlook hadj
    | false =>
        obtain ⟨m', T', A, B, hrun, h', hT, hT'⟩ := h.extract hp hlook hadj
        have hdead : a ∉ addrs T' := fun hmem => by
          have hlive := (h'.live a).mpr hmem
          simp [RbMem.free] at hlive
        have hrepr : ReprTree m' none T' := h'.holds.repr.frame fun b hb => by
          have hne : b ≠ a := by
            rintro rfl
            exact hdead hb
          exact (Function.update_of_ne hne ..).symm
        exact ⟨m', T', A, B, hrun, h'.holds.root, hrepr.linked, hT, hT'⟩
  have hsub : (A ++ B).Sublist T.toList := by
    rw [hT]
    exact (List.sublist_cons_self _ _).append_left A
  refine ⟨_, _, m', T', A, B, hp, hrun, ⟨hroot, hlinked, ?_, ?_⟩, hT, hT'⟩
  · rw [addrs, hT']
    exact h.holds.nodup.sublist (hsub.map Prod.fst)
  · rw [hT']
    exact h.ordered.sublist hsub

/-- The tree of the fds 4, 2, 6 and 3. -/
def fourTree : RbMem where
  node a := if a = 0 then some ⟨false, none, some 1, some 2, 4⟩
    else if a = 1 then some ⟨false, some 0, none, some 3, 2⟩
    else if a = 2 then some ⟨false, some 0, none, none, 6⟩
    else if a = 3 then some ⟨true, some 1, none, none, 3⟩ else none
  root := some 0
  top := 4

/-- The example with four nodes is a valid tree. -/
theorem fourTree_valid :
    ValidTree fourTree (.node false (.node false .nil (1, 2) (.node true .nil (3, 3) .nil)) (0, 4)
      (.node false .nil (2, 6) .nil)) where
  holds := ⟨rfl, ⟨rfl, ⟨rfl, trivial, rfl, trivial, trivial⟩, rfl, trivial, trivial⟩, by decide⟩
  redBlack := ⟨rfl, 2, 1, rfl, ⟨0, rfl, rfl, rfl, rfl, rfl, rfl⟩, 0, rfl, rfl, rfl⟩
  ordered := by simp [FdOrdered, toList]
  live a := by
    simp only [fourTree, addrs, toList, List.nil_append, List.map_append, List.map_cons,
      List.map_nil, List.mem_append, List.mem_cons, List.not_mem_nil, or_false]
    split
    next => simp [*]
    next =>
      split
      next => simp [*]
      next =>
        split
        next => simp [*]
        next => split <;> simp [*]
  below := by simp [addrs, toList, fourTree]

/-- Extracting the root, which has two children: the last node below the left one takes its
place. -/
theorem rbExtract_searchTree_root :
    (0, 4) ∈ [(1, (2 : ℤ)), (3, 3), (0, 4), (2, 6)] ∧ ∃ place parent m' T' A B,
      fourTree.rbProbe .root 4 = some (place, parent) ∧
      fourTree.rbExtract place parent = some (0, m') ∧ SearchTree m' T' ∧
      [(1, 2), (3, 3), (0, 4), (2, 6)] = A ++ (0, 4) :: B ∧ T'.toList = A ++ B :=
  ⟨by decide, rbExtract_searchTree fourTree_valid (by decide)⟩

end IoEngine
