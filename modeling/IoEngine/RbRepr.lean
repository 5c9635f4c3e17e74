import Mathlib.Data.List.Nodup
import IoEngine.RbTree

/-!
# From Pointers to Trees

`Holds m T` says that the pointers of `m` spell out the tree `T`: the root pointer
designates its root, and every node's word in memory is the one `T` prescribes — colour,
child pointers, `fd`, and a parent pointer that names the node linking to it. The
elements of `T` are the pairs of an address and its `fd`.

The main results let the algorithms of `rbtree.c` be followed on trees:

* `Holds.node_eq`: reading a node at any position;
* `Holds.setRed`: recolouring a node at any position;
* `Holds.rotate`: `rb_rotate` at any position is the tree rotation there.

Below them, a context is represented by `ReprCtx`, and an update of memory is confined by
`Changes`: it says at which addresses the memory may have changed.
-/

open RedBlack RedBlack.ColTree RedBlack.Ctx

namespace IoEngine

/-- An element of the tree: the address of a node and its `fd`. -/
abbrev RbElem := Addr × ℤ

/-- The pointer to the root of a tree. -/
def ptr : ColTree RbElem → Ptr
  | .nil => none
  | .node _ _ x _ => some x.1

/-- The addresses of the nodes of a tree, in order. -/
def addrs (t : ColTree RbElem) : List Addr :=
  t.toList.map Prod.fst

/-- The addresses of the nodes of a context. -/
def ctxAddrs (c : Ctx RbElem) : List Addr :=
  (Ctx.elems c).map Prod.fst

/-- The word of a node given by its child in direction `d` and the one on the other side. -/
def mkLinks (d : Dir) (red : Bool) (parent near far : Ptr) (fd : ℤ) : RbLinks :=
  match d with
  | .left => ⟨red, parent, near, far, fd⟩
  | .right => ⟨red, parent, far, near, fd⟩

@[simp] theorem ptr_nil : ptr .nil = none := rfl

theorem ptr_node (red : Bool) (l : ColTree RbElem) (x : RbElem) (r : ColTree RbElem) :
    ptr (.node red l x r) = some x.1 := rfl

/-- The pointer to a tree given by its sides is that to its root. -/
@[simp] theorem ptr_side (d : Dir) (red : Bool) (x : RbElem) (A B : ColTree RbElem) :
    ptr (side d red x A B) = some x.1 := by cases d <;> rfl

/-- A change of colour does not move the root. -/
@[simp] theorem ptr_blacken (t : ColTree RbElem) : ptr t.blacken = ptr t := by cases t <;> rfl

section mkLinks

variable (d : Dir) (red : Bool) (parent near far : Ptr) (fd : ℤ)

@[simp] theorem child_mkLinks : (mkLinks d red parent near far fd).child d = near := by
  cases d <;> rfl

@[simp] theorem child_opp_mkLinks :
    (mkLinks d red parent near far fd).child d.opp = far := by
  cases d <;> rfl

@[simp] theorem setChild_mkLinks (p : Ptr) :
    (mkLinks d red parent near far fd).setChild d p = mkLinks d red parent p far fd := by
  cases d <;> rfl

@[simp] theorem setChild_opp_mkLinks (p : Ptr) :
    (mkLinks d red parent near far fd).setChild d.opp p = mkLinks d red parent near p fd := by
  cases d <;> rfl

@[simp] theorem red_mkLinks : (mkLinks d red parent near far fd).red = red := by
  cases d <;> rfl

@[simp] theorem parent_mkLinks : (mkLinks d red parent near far fd).parent = parent := by
  cases d <;> rfl

@[simp] theorem fd_mkLinks : (mkLinks d red parent near far fd).fd = fd := by
  cases d <;> rfl

@[simp] theorem setRed_mkLinks (red' : Bool) :
    { mkLinks d red parent near far fd with red := red' } =
      mkLinks d red' parent near far fd := by
  cases d <;> rfl

@[simp] theorem setParent_mkLinks (p : Ptr) :
    { mkLinks d red parent near far fd with parent := p } =
      mkLinks d red p near far fd := by
  cases d <;> rfl

/-- The test `node->child[RIGHT] == a` finds the side of `a`, when `a` is not on both. -/
theorem dir_mkLinks {a : Ptr} (h : far ≠ a) :
    (if (mkLinks d red parent a far fd).right = a then Dir.right else Dir.left) = d := by
  cases d with
  | left => simp [mkLinks, h]
  | right => simp [mkLinks]

end mkLinks

/-- The nodes of a tree whose root has the given parent pointer are in memory. -/
def ReprTree (m : RbMem) : Ptr → ColTree RbElem → Prop
  | _, .nil => True
  | parent, .node red l x r =>
      m.node x.1 = some ⟨red, parent, ptr l, ptr r, x.2⟩ ∧
        ReprTree m (some x.1) l ∧ ReprTree m (some x.1) r

/-- A tree given by its sides is in memory if its root and its sides are. -/
theorem repr_side {m : RbMem} {parent : Ptr} {d : Dir} {red : Bool} {x : RbElem}
    {A B : ColTree RbElem} :
    ReprTree m parent (side d red x A B) ↔
      m.node x.1 = some (mkLinks d red parent (ptr A) (ptr B) x.2) ∧
        ReprTree m (some x.1) A ∧ ReprTree m (some x.1) B := by
  cases d with
  | left => exact Iff.rfl
  | right =>
      simp only [side, ReprTree, mkLinks]
      tauto

/-- The node that holds the hole of a context, `none` for the root reference. -/
def holeParent : Ctx RbElem → Ptr
  | [] => none
  | f :: _ => some f.elem.1

/-- The slot that is the hole of a context. -/
def holePlace : Ctx RbElem → RbPlace
  | [] => .root
  | f :: _ => .child f.elem.1 f.dir

/-- The parent of a hole is the node of the innermost frame. -/
theorem holeParent_cons (f : Frame RbElem) (c : Ctx RbElem) :
    holeParent (f :: c) = some f.elem.1 := rfl

/-- The place of a hole is the child slot of the innermost frame. -/
theorem holePlace_cons (f : Frame RbElem) (c : Ctx RbElem) :
    holePlace (f :: c) = .child f.elem.1 f.dir := rfl

/-- The nodes of a context are in memory, and the hole holds the pointer `p`. -/
def ReprCtx (m : RbMem) : Ptr → Ctx RbElem → Prop
  | p, [] => m.root = p
  | p, f :: c =>
      m.node f.elem.1 =
          some (mkLinks f.dir f.red (holeParent c) p (ptr f.sib) f.elem.2) ∧
        ReprTree m (some f.elem.1) f.sib ∧ ReprCtx m (some f.elem.1) c

/-- The memory spells out the tree `T`. -/
structure Holds (m : RbMem) (T : ColTree RbElem) : Prop where
  root : m.root = ptr T
  repr : ReprTree m none T
  nodup : (addrs T).Nodup

/-! ### Confined updates -/

/-- The same addresses are live. -/
structure SameDom (m m' : RbMem) : Prop where
  dom : ∀ a, (m'.node a).isSome = (m.node a).isSome
  top : m'.top = m.top

theorem SameDom.refl (m : RbMem) : SameDom m m :=
  ⟨fun _ => rfl, rfl⟩

theorem SameDom.trans {m₁ m₂ m₃ : RbMem} (h₁ : SameDom m₁ m₂) (h₂ : SameDom m₂ m₃) :
    SameDom m₁ m₃ :=
  ⟨fun a => (h₂.dom a).trans (h₁.dom a), h₂.top.trans h₁.top⟩

/-- `m'` differs from `m` at most at the addresses of `S` and in its root pointer, and has
the same live addresses. -/
structure Changes (m m' : RbMem) (S : List Addr) : Prop extends SameDom m m' where
  node : ∀ a, a ∉ S → m'.node a = m.node a

theorem Changes.refl (m : RbMem) (S : List Addr) : Changes m m S :=
  ⟨SameDom.refl m, fun _ _ => rfl⟩

/-- Two changes after one another change what either of them changes. -/
theorem Changes.trans {m₁ m₂ m₃ : RbMem} {S T : List Addr} (h₁ : Changes m₁ m₂ S)
    (h₂ : Changes m₂ m₃ T) : Changes m₁ m₃ (S ++ T) where
  toSameDom := h₁.toSameDom.trans h₂.toSameDom
  node a ha := by
    rw [List.mem_append, not_or] at ha
    rw [h₂.node a ha.2, h₁.node a ha.1]

/-- A change may be said to touch more than it does. -/
theorem Changes.mono {m m' : RbMem} {S T : List Addr} (h : Changes m m' S) (hST : S ⊆ T) :
    Changes m m' T :=
  ⟨h.toSameDom, fun a ha => h.node a fun hS => ha (hST hS)⟩

/-- Writing to a live node changes that node only. -/
theorem modify_spec {m : RbMem} {a : Addr} {n : RbLinks} (h : m.node a = some n)
    (f : RbLinks → RbLinks) :
    ∃ m', m.modify a f = some m' ∧ m'.node a = some (f n) ∧ m'.root = m.root ∧
      Changes m m' [a] := by
  refine ⟨{ m with node := Function.update m.node a (some (f n)) },
    by rw [RbMem.modify, h]; rfl, Function.update_self .., rfl, ⟨?_, rfl⟩, ?_⟩
  · intro b
    by_cases hb : b = a
    · subst hb
      simp [h]
    · simp [Function.update_of_ne hb]
  · intro b hb
    exact Function.update_of_ne (by simpa using hb) ..

/-- **Frame rule**: a change away from the nodes of a tree keeps it in memory. -/
theorem ReprTree.frame {m m' : RbMem} {parent : Ptr} {t : ColTree RbElem} (h : ReprTree m parent t)
    (hm : ∀ a ∈ addrs t, m'.node a = m.node a) : ReprTree m' parent t := by
  induction t generalizing parent with
  | nil => trivial
  | node red l x r ihl ihr =>
      obtain ⟨hx, hl, hr⟩ := h
      simp only [addrs, toList, List.map_append, List.map_cons, List.mem_append,
        List.mem_cons] at hm
      refine ⟨(hm x.1 (by simp)).trans hx, ihl hl fun a ha => hm a (.inl ha),
        ihr hr fun a ha => hm a (.inr (.inr ha))⟩

/-- **Frame rule**: a change away from the nodes of a context keeps it in memory. -/
theorem ReprCtx.frame {m m' : RbMem} {p : Ptr} {c : Ctx RbElem} (h : ReprCtx m p c)
    (hroot : m'.root = m.root) (hm : ∀ a ∈ ctxAddrs c, m'.node a = m.node a) :
    ReprCtx m' p c := by
  induction c generalizing p with
  | nil => exact hroot.trans h
  | cons f c ih =>
      obtain ⟨hf, hs, hc⟩ := h
      simp only [ctxAddrs, Ctx.elems, List.map_cons, List.map_append, List.mem_cons,
        List.mem_append] at hm
      exact ⟨(hm _ (.inl rfl)).trans hf, hs.frame fun a ha => hm a (.inr (.inl ha)),
        ih hc fun a ha => hm a (.inr (.inr ha))⟩

/-! ### Positions -/

/-- The addresses of a subtree and of the context around it are distinct. -/
def Sep (c : Ctx RbElem) (t : ColTree RbElem) : Prop :=
  (addrs t ++ ctxAddrs c).Nodup

/-- The nodes of a whole tree differ if those of subtree and context do. -/
theorem nodup_addrs_plug {c : Ctx RbElem} {t : ColTree RbElem} :
    (addrs (plug c t)).Nodup ↔ Sep c t := by
  rw [addrs, ((toList_plug_perm c t).map Prod.fst).nodup_iff, List.map_append]
  rfl

/-- A tree is in memory exactly when, at any position, its context and its subtree are. -/
theorem repr_plug {m : RbMem} {c : Ctx RbElem} {t : ColTree RbElem} :
    (m.root = ptr (plug c t) ∧ ReprTree m none (plug c t)) ↔
      ReprCtx m (ptr t) c ∧ ReprTree m (holeParent c) t := by
  induction c generalizing t with
  | nil => exact Iff.rfl
  | cons f c ih =>
      rw [plug, ih, ptr_side, repr_side]
      simp only [ReprCtx, holeParent]
      tauto

/-- **A whole tree is in memory** if its subtree and its context are, apart from each other. -/
theorem holds_plug {m : RbMem} {c : Ctx RbElem} {t : ColTree RbElem} :
    Holds m (plug c t) ↔ ReprCtx m (ptr t) c ∧ ReprTree m (holeParent c) t ∧ Sep c t := by
  rw [← and_assoc, ← repr_plug, ← nodup_addrs_plug]
  exact ⟨fun h => ⟨⟨h.root, h.repr⟩, h.nodup⟩, fun h => ⟨h.1.1, h.1.2, h.2⟩⟩

/-- A subtree given by its sides is apart from the context if all the nodes differ. -/
theorem sep_side {c : Ctx RbElem} {d : Dir} {red : Bool} {x : RbElem} {A B : ColTree RbElem} :
    Sep c (side d red x A B) ↔ (x.1 :: (addrs A ++ addrs B) ++ ctxAddrs c).Nodup := by
  refine (List.Perm.append_right _ ?_).nodup_iff
  simpa [addrs] using (toList_side_perm d red x A B).map Prod.fst

/-- **Reading a node.** At any position of the tree the node's word is the one the tree
prescribes. -/
theorem Holds.node_eq {m : RbMem} {c : Ctx RbElem} {d : Dir} {red : Bool} {x : RbElem}
    {A B : ColTree RbElem} (h : Holds m (plug c (side d red x A B))) :
    m.node x.1 = some (mkLinks d red (holeParent c) (ptr A) (ptr B) x.2) :=
  (repr_side.mp (holds_plug.mp h).2.1).1

/-- The colour of a subtree, read through its pointer. -/
theorem Holds.isRed_eq {m : RbMem} {c : Ctx RbElem} {t : ColTree RbElem}
    (h : Holds m (plug c t)) : m.isRed (ptr t) = some t.isRed := by
  cases t with
  | nil => rfl
  | node red l x r =>
      have hx := Holds.node_eq (d := .left) (c := c) h
      simp [RbMem.isRed, ColTree.isRed, ptr, hx]

/-- The colour of the node above a position, read through its pointer. -/
theorem Holds.isRed_holeParent {m : RbMem} {c : Ctx RbElem} {t : ColTree RbElem}
    (h : Holds m (plug c t)) : m.isRed (holeParent c) = some (headRed c) := by
  cases c with
  | nil => rfl
  | cons f c =>
      have hx : Holds m (plug c (side f.dir f.red f.elem t f.sib)) := h
      simp [RbMem.isRed, holeParent, headRed, hx.node_eq]

/-- The pointer at a position differs from the pointers of the other subtrees. -/
theorem Holds.ptr_ne {m : RbMem} {c : Ctx RbElem} {d : Dir} {red : Bool} {x : RbElem}
    {A B : ColTree RbElem} (h : Holds m (plug c (side d red x A B))) (hA : A ≠ .nil) :
    ptr B ≠ ptr A := by
  obtain ⟨red', y, l, r, rfl⟩ := exists_side hA .left
  cases B with
  | nil => simp
  | node red'' l' z r' =>
      have hs := sep_side.mp (holds_plug.mp h).2.2
      simp only [addrs, side, toList, List.map_append, List.map_cons, List.cons_append,
        List.nodup_cons, List.append_assoc] at hs
      have hn := hs.2
      rw [List.nodup_append'] at hn
      have hn := hn.2.1
      simp only [List.nodup_cons, List.mem_append, List.mem_cons] at hn
      rw [ptr_side, ptr, ne_eq, Option.some.injEq]
      exact fun hzy => hn.1 (.inr (.inr (.inl hzy.symm)))

/-! ### Recolouring -/

/-- **Recolouring a node** at any position. -/
theorem Holds.setRed {m : RbMem} {c : Ctx RbElem} {d : Dir} {red : Bool} {x : RbElem}
    {A B : ColTree RbElem} (h : Holds m (plug c (side d red x A B))) (red' : Bool) :
    ∃ m', m.setRed x.1 red' = some m' ∧ Holds m' (plug c (side d red' x A B)) ∧
      Changes m m' [x.1] := by
  obtain ⟨hc, ht, hs⟩ := holds_plug.mp h
  obtain ⟨hx, hA, hB⟩ := repr_side.mp ht
  have hs' := sep_side.mp hs
  simp only [List.cons_append, List.nodup_cons, List.mem_append, not_or] at hs'
  obtain ⟨⟨⟨hxA, hxB⟩, hxc⟩, -⟩ := hs'
  obtain ⟨m', hm', hx', hroot, hch⟩ := modify_spec hx fun n => { n with red := red' }
  rw [setRed_mkLinks] at hx'
  have hframe : ∀ {L : List Addr}, x.1 ∉ L → ∀ a ∈ L, m'.node a = m.node a := by
    intro L hL a ha
    refine hch.node a ?_
    rw [List.mem_singleton]
    rintro rfl
    exact hL ha
  refine ⟨m', hm', holds_plug.mpr ⟨?_, repr_side.mpr ⟨hx', ?_, ?_⟩, sep_side.mpr ?_⟩, hch⟩
  · rw [ptr_side] at hc ⊢
    exact hc.frame hroot (hframe hxc)
  · exact hA.frame (hframe hxA)
  · exact hB.frame (hframe hxB)
  · exact sep_side.mp hs

/-! ### Rotation -/

/-- Setting the parent pointer of a subtree's root re-hangs the subtree. -/
theorem ReprTree.setParentIf {m : RbMem} {parent : Ptr} {t : ColTree RbElem}
    (h : ReprTree m parent t)
    (hn : (addrs t).Nodup) (parent' : Ptr) :
    ∃ m', m.setParentIf (ptr t) parent' = some m' ∧ ReprTree m' parent' t ∧
      m'.root = m.root ∧ Changes m m' (addrs t) := by
  cases t with
  | nil => exact ⟨m, rfl, trivial, rfl, Changes.refl ..⟩
  | node red l x r =>
      obtain ⟨hx, hl, hr⟩ := h
      obtain ⟨m', hm', hx', hroot, hch⟩ :=
        modify_spec hx fun n => { n with parent := parent' }
      rw [addrs, toList, List.map_append, List.map_cons, List.nodup_middle,
        List.nodup_cons, List.mem_append, not_or] at hn
      refine ⟨m', hm', ⟨hx', hl.frame fun a ha => hch.node a ?_,
        hr.frame fun a ha => hch.node a ?_⟩, hroot, hch.mono (by simp [addrs, toList])⟩
      · rw [List.mem_singleton]
        rintro rfl
        exact hn.1.1 ha
      · rw [List.mem_singleton]
        rintro rfl
        exact hn.1.2 ha

/-- The slot that links to a node is found through its parent pointer. -/
theorem ReprCtx.linkTo {m : RbMem} {c : Ctx RbElem} {a : Addr}
    (h : ReprCtx m (some a) c) (ha : a ∉ ctxAddrs c) :
    m.linkTo (holeParent c) a = some (holePlace c) := by
  cases c with
  | nil => rfl
  | cons f c =>
      obtain ⟨hf, -, -⟩ := h
      have hne : ptr f.sib ≠ some a := by
        intro hsib
        refine ha ?_
        cases hs : f.sib with
        | nil => simp [hs] at hsib
        | node red l x r =>
            rw [hs, ptr, Option.some.injEq] at hsib
            simp [ctxAddrs, Ctx.elems, hs, toList, hsib]
      simp only [RbMem.linkTo, holeParent, holePlace, hf, Option.map_some,
        dir_mkLinks _ _ _ _ _ hne]

/-- Reading the hole of a context. -/
theorem ReprCtx.load {m : RbMem} {c : Ctx RbElem} {p : Ptr} (h : ReprCtx m p c) :
    m.load (holePlace c) = some p := by
  cases c with
  | nil => exact congrArg some h
  | cons f c => simp [RbMem.load, holePlace, h.1]

/-- Writing to the hole of a context. -/
theorem ReprCtx.store {m : RbMem} {c : Ctx RbElem} {p : Ptr} (h : ReprCtx m p c)
    (hn : (ctxAddrs c).Nodup) (q : Ptr) :
    ∃ m', m.store q (holePlace c) = some m' ∧ ReprCtx m' q c ∧
      Changes m m' (ctxAddrs c) := by
  cases c with
  | nil => exact ⟨{ m with root := q }, rfl, rfl, ⟨fun _ => rfl, rfl⟩, fun _ _ => rfl⟩
  | cons f c =>
      obtain ⟨hf, hs, hc⟩ := h
      obtain ⟨m', hm', hf', hroot, hch⟩ := modify_spec hf fun n => n.setChild f.dir q
      rw [setChild_mkLinks] at hf'
      simp only [ctxAddrs, Ctx.elems, List.map_cons, List.map_append, List.nodup_cons,
        List.mem_append, not_or] at hn
      refine ⟨m', hm', ⟨hf', hs.frame fun a ha => hch.node a ?_,
        hc.frame hroot fun a ha => hch.node a ?_⟩, hch.mono (by simp [ctxAddrs, Ctx.elems])⟩
      · rw [List.mem_singleton]
        rintro rfl
        exact hn.1.1 ha
      · rw [List.mem_singleton]
        rintro rfl
        exact hn.1.2 ha

/-- An address outside the changed ones keeps its word. -/
theorem Changes.keep {m m' : RbMem} {S : List Addr} {a : Addr} {o : Option RbLinks}
    (h : Changes m m' S) (ha : a ∉ S) (hm : m.node a = o) : m'.node a = o :=
  (h.node a ha).trans hm

/-- **Rotation.** `rb_rotate` at any position of the tree turns
`x A (y B C)`, seen from direction `d`, into `y (x A B) C`. -/
theorem Holds.rotate {m : RbMem} {c : Ctx RbElem} {d : Dir} {cx cy : Bool} {x y : RbElem}
    {A B C : ColTree RbElem} (h : Holds m (plug c (side d cx x A (side d cy y B C)))) :
    ∃ m', m.rbRotate x.1 d = some m' ∧
      Holds m' (plug c (side d cy y (side d cx x A B) C)) ∧
      Changes m m' (x.1 :: y.1 :: (addrs B ++ ctxAddrs c)) := by
  obtain ⟨hc, ht, hs⟩ := holds_plug.mp h
  obtain ⟨hx, hA, hyt⟩ := repr_side.mp ht
  obtain ⟨hy, hB, hC⟩ := repr_side.mp hyt
  rw [ptr_side] at hc hx
  -- the addresses involved are pairwise distinct
  have hperm : (x.1 :: (addrs A ++ addrs (side d cy y B C)) ++ ctxAddrs c).Perm
      (x.1 :: y.1 :: (addrs A ++ (addrs B ++ (addrs C ++ ctxAddrs c)))) := by
    have hp : (addrs (side d cy y B C)).Perm (y.1 :: (addrs B ++ addrs C)) := by
      simpa [addrs] using (toList_side_perm d cy y B C).map Prod.fst
    rw [List.cons_append]
    refine List.Perm.cons _ ?_
    rw [List.append_assoc]
    refine ((hp.append_right _).append_left _).trans ?_
    simp
  have hnd := hperm.nodup_iff.mp (sep_side.mp hs)
  simp only [List.nodup_cons, List.nodup_append', List.mem_cons, List.mem_append, not_or,
    List.disjoint_left] at hnd
  obtain ⟨⟨hxy, hxA, hxB, hxC, hxc⟩, ⟨hyA, hyB, hyC, hyc⟩, -, ⟨hnB, ⟨hnC, hnc, hCc⟩, hBr⟩,
    hAr⟩ := hnd
  -- the writes of the source, one after the other
  obtain ⟨m₁, e₁, hy₁, r₁, ch₁⟩ := modify_spec hy fun n => { n with parent := holeParent c }
  rw [setParent_mkLinks] at hy₁
  have hc₁ : ReprCtx m₁ (some x.1) c := hc.frame r₁ fun a ha => ch₁.node a (by grind)
  obtain ⟨m₂, e₂, hc₂, ch₂⟩ := hc₁.store hnc (some y.1)
  have hx₂ := ch₂.keep hxc (ch₁.keep (by grind) hx)
  obtain ⟨m₃, e₃, hx₃, r₃, ch₃⟩ := modify_spec hx₂ fun n => n.setChild d.opp (ptr B)
  rw [setChild_opp_mkLinks] at hx₃
  have ch₁₃ := (ch₁.trans ch₂).trans ch₃
  have hB₃ : ReprTree m₃ (some y.1) B := hB.frame fun a ha => ch₁₃.node a (by grind)
  obtain ⟨m₄, e₄, hB₄, r₄, ch₄⟩ := hB₃.setParentIf hnB (some x.1)
  have hy₄ := ch₄.keep hyB (ch₃.keep (by grind) (ch₂.keep hyc hy₁))
  obtain ⟨m₅, e₅, hy₅, r₅, ch₅⟩ := modify_spec hy₄ fun n => n.setChild d (some x.1)
  rw [setChild_mkLinks] at hy₅
  have hx₅ := ch₅.keep (by grind) (ch₄.keep hxB hx₃)
  obtain ⟨m₆, e₆, hx₆, r₆, ch₆⟩ := modify_spec hx₅ fun n => { n with parent := some y.1 }
  rw [setParent_mkLinks] at hx₆
  have ch₃₆ := (ch₄.trans ch₅).trans ch₆
  have ch₁₆ := ch₁₃.trans ch₃₆
  refine ⟨m₆, ?_, holds_plug.mpr ⟨?_, repr_side.mpr ⟨?_, repr_side.mpr ⟨?_, ?_, ?_⟩, ?_⟩, ?_⟩,
    ch₁₆.mono (by grind)⟩
  · have hxc' : m.linkTo (holeParent c) x.1 = some (holePlace c) := hc.linkTo hxc
    simp only [RbMem.rbRotate, hx, hy, hxc', parent_mkLinks, child_opp_mkLinks,
      child_mkLinks, bind, Option.bind_some, RbMem.setParent, RbMem.setChild, e₁, e₂, e₃, e₄,
      e₅, e₆]
  · rw [ptr_side]
    exact hc₂.frame (by rw [r₆, r₅, r₄, r₃]) fun a ha => (ch₃.trans ch₃₆).node a (by grind)
  · rw [ptr_side]
    exact ch₆.keep (by grind) hy₅
  · exact hx₆
  · exact hA.frame fun a ha => ch₁₆.node a (by grind)
  · exact hB₄.frame fun a ha => (ch₅.trans ch₆).node a (by grind)
  · exact hC.frame fun a ha => ch₁₆.node a (by grind)
  · rw [← nodup_addrs_plug] at hs ⊢
    have : (plug c (side d cy y (side d cx x A B) C)).toList =
        (plug c (side d cx x A (side d cy y B C))).toList := by
      rw [toList_plug, toList_plug, toList_rotate]
    rwa [addrs, this]

/-- The subtree `t` hangs somewhere in memory, unchanged. -/
def Kept (m : RbMem) (t : ColTree RbElem) : Prop :=
  ∃ parent, ReprTree m parent t

/-- What is kept of a tree is kept of its near side. -/
theorem Kept.near {m : RbMem} {d : Dir} {red : Bool} {x : RbElem} {A B : ColTree RbElem}
    (h : Kept m (side d red x A B)) : Kept m A :=
  ⟨_, (repr_side.mp h.choose_spec).2.1⟩

/-- What is kept of a tree is kept of its far side. -/
theorem Kept.far {m : RbMem} {d : Dir} {red : Bool} {x : RbElem} {A B : ColTree RbElem}
    (h : Kept m (side d red x A B)) : Kept m B :=
  ⟨_, (repr_side.mp h.choose_spec).2.2⟩

/-- A tree in memory keeps its subtrees. -/
theorem Holds.kept {m : RbMem} {c : Ctx RbElem} {t : ColTree RbElem}
    (h : Holds m (plug c t)) : Kept m t :=
  ⟨_, (holds_plug.mp h).2.1⟩

end IoEngine
