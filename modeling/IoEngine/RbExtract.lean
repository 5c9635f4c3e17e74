import Mathlib.Data.List.Induction
import IoEngine.RbDelete
import IoEngine.RbProbe

/-!
# Extraction From the Pointer Tree

`rb_extract` removes the node at a slot. A node with two children first trades places
with its predecessor, by relinking and not by copying, and is then looked for again from
the predecessor's left slot; a node with at most one child is replaced by that child, and
`fix_delete` repairs the colours.

## Main results

* `Holds.unlink`: the removal of a node with at most one child.
* `predecessorLoop_spec`: the predecessor is the end of a path of right links.
* `Holds.swapApart`: trading places with a predecessor further down.
-/

open RedBlack RedBlack.ColTree RedBlack.Ctx

namespace IoEngine

/-! ### Removing a node with at most one child -/

/-- **Unlinking** the node at a position, one of whose subtrees is empty: the other one
takes its place, and the tree is repaired when the node was black. -/
theorem Holds.unlink {m : RbMem} {c : Ctx RbElem} {d : Dir} {red : Bool} {x : RbElem}
    {son : ColTree RbElem} {n : ℕ} (h : Holds m (plug c (side d red x son .nil)))
    (hf : Fits c n) (ht : Balanced (side d red x son .nil) n) (htop : c.length < m.top) :
    ∃ m' T, m.unlink (holePlace c) (holeParent c) x.1 = some m' ∧
      Restored m m' (plug c son).toList T := by
  obtain ⟨hc, hrep, hs⟩ := holds_plug.mp h
  obtain ⟨hx, hson, -⟩ := repr_side.mp hrep
  have hnd := sep_side.mp hs
  simp only [addrs, ColTree.toList, List.map_nil, List.append_nil, List.cons_append,
    List.nodup_cons] at hnd
  obtain ⟨-, hnd⟩ := hnd
  obtain ⟨hnson, hnc, hdisj⟩ := List.nodup_append'.mp hnd
  have hsonptr : (if (mkLinks d red (holeParent c) (ptr son) (ptr .nil) x.2).left.isSome
      then (mkLinks d red (holeParent c) (ptr son) (ptr .nil) x.2).left
      else (mkLinks d red (holeParent c) (ptr son) (ptr .nil) x.2).right) = ptr son := by
    cases d <;> cases son <;> simp [mkLinks, ptr]
  obtain ⟨m₁, e₁, hc₁, ch₁⟩ := hc.store hnc (ptr son)
  have hson₁ : ReprTree m₁ (some x.1) son :=
    hson.frame fun a ha => ch₁.node a fun hac => hdisj ha hac
  obtain ⟨m₂, e₂, hson₂, r₂, ch₂⟩ := hson₁.setParentIf hnson (holeParent c)
  have hc₂ : ReprCtx m₂ (ptr son) c :=
    hc₁.frame r₂ fun a ha => ch₂.node a fun has => hdisj has ha
  have h₂ : Holds m₂ (plug c son) := holds_plug.mpr ⟨hc₂, hson₂, hnd⟩
  have hs₂ := ch₁.toSameDom.trans ch₂.toSameDom
  have hrun : m.unlink (holePlace c) (holeParent c) x.1 =
      if red then some m₂ else m₂.fixDelete (ptr son) (holeParent c) := by
    simp only [RbMem.unlink, hx, bind, Option.bind_some, hsonptr, e₁, e₂, red_mkLinks]
  rw [hrun]
  cases red with
  | true =>
      obtain ⟨hb, -, hbal, -⟩ := (balanced_side_red ..).mp ht
      exact ⟨m₂, _, rfl, h₂,
        isRedBlack_plug hf hbal fun hr => absurd (hb.symm.trans hr) (by simp), rfl, hs₂⟩
  | false =>
      obtain ⟨k, rfl⟩ := exists_of_balanced_black ht (side_ne_nil _ _ _ _ _) (isRed_side ..)
      obtain ⟨hbal, -⟩ := (balanced_side_black ..).mp ht
      obtain ⟨m', T, e', hr⟩ := fixDeleteLoop_spec (2 * m₂.top + 2) h₂ hf hbal
        (by rw [hs₂.top]; omega)
      exact ⟨m', T, by simpa [RbMem.fixDelete] using e', hr.of_same hs₂⟩

/-! ### The predecessor -/

/-- All frames of the context hang on the right. -/
def RightPath (c : Ctx RbElem) : Prop :=
  ∀ f ∈ c, f.dir = .right

/-- Nothing comes after a path of right links. -/
theorem RightPath.after_eq {c : Ctx RbElem} (h : RightPath c) : after c = [] := by
  induction c with
  | nil => rfl
  | cons f c ih =>
      rw [after, h f (by simp)]
      exact ih fun g hg => h g (List.mem_cons_of_mem _ hg)

/-- **`predecessor`**: the walk to the right ends at a node without a right child. -/
theorem predecessorLoop_spec {m : RbMem} (fuel : ℕ) {C : Ctx RbElem} {t : ColTree RbElem}
    (h : Holds m (plug C t)) (ht : t ≠ .nil) (hfuel : t.toList.length < fuel) :
    ∃ c red l x, t = plug c (.node red l x .nil) ∧ RightPath c ∧
      m.predecessorLoop fuel (holePlace C) = some (holePlace (c ++ C)) := by
  induction t generalizing C fuel with
  | nil => exact absurd rfl ht
  | node red l x r _ ihr =>
      obtain ⟨fuel, rfl⟩ : ∃ k, fuel = k + 1 := ⟨fuel - 1, by omega⟩
      have hload := (holds_plug.mp h).1.load
      have hx := Holds.node_eq (d := .left) h
      cases r with
      | nil =>
          refine ⟨[], red, l, x, rfl, by simp [RightPath], ?_⟩
          simp [RbMem.predecessorLoop, hload, ptr, hx, mkLinks]
      | node red' l' y r' =>
          simp only [ColTree.toList, List.length_append, List.length_cons] at hfuel ihr
          obtain ⟨c, redp, lp, p, hr, hpath, hloop⟩ :=
            ihr fuel (C := ⟨.right, red, x, l⟩ :: C) h (by simp) (by omega)
          refine ⟨c ++ [⟨.right, red, x, l⟩], redp, lp, p, ?_, ?_, ?_⟩
          · rw [plug_append, ← hr]
            rfl
          · intro f hf
            rw [List.mem_append, List.mem_singleton] at hf
            rcases hf with hf | rfl
            · exact hpath f hf
            · rfl
          · rw [List.append_assoc, List.singleton_append, ← hloop, RbMem.predecessorLoop]
            simp only [hload, ptr, hx, mkLinks, bind, Option.bind_some, Option.isSome_some,
              if_true, holePlace_cons]

/-- `rb_probe` along a path of right links over smaller keys, down to `fd` itself. The
parent it returns is the one it was started with only if the path is empty. -/
theorem rbProbeLoop_rightPath {m : RbMem} {fd : ℤ} (fuel : ℕ) {c C : Ctx RbElem} (par : Ptr)
    {red : Bool} {a : Addr} {l r : ColTree RbElem}
    (h : Holds m (plug (c ++ C) (.node red l (a, fd) r))) (hpath : RightPath c)
    (hlt : ∀ f ∈ c, f.elem.2 < fd) (hfuel : c.length < fuel) :
    m.rbProbeLoop fd fuel (holePlace C) par =
      some (holePlace (c ++ C), if c = [] then par else holeParent (c ++ C)) := by
  induction c using List.reverseRecOn generalizing C par fuel with
  | nil =>
      obtain ⟨fuel, rfl⟩ : ∃ k, fuel = k + 1 := ⟨fuel - 1, by omega⟩
      have hload := (holds_plug.mp h).1.load
      have hx := Holds.node_eq (d := .left) h
      simp only [List.nil_append] at hload ⊢
      simp only [RbMem.rbProbeLoop, hload, ptr, hx, fd_mkLinks, bind, Option.bind_some,
        if_true]
  | append_singleton c f ih =>
      obtain ⟨fuel, rfl⟩ : ∃ k, fuel = k + 1 := ⟨fuel - 1, by omega⟩
      have hf : f.dir = .right := hpath f (by simp)
      have hk := hlt f (by simp)
      rw [List.append_assoc, List.singleton_append] at h ⊢
      have hC : Holds m (plug C (side f.dir f.red f.elem
          (plug c (.node red l (a, fd) r)) f.sib)) := by
        rw [plug_append] at h
        exact h
      have hload := (holds_plug.mp hC).1.load
      have hx := hC.node_eq
      have hstep : m.rbProbeLoop fd (fuel + 1) (holePlace C) par =
          m.rbProbeLoop fd fuel (holePlace (f :: C)) (holeParent (f :: C)) := by
        rw [ptr_side] at hload
        simp only [RbMem.rbProbeLoop, hload, hx, fd_mkLinks, hk.ne, hk, if_true, if_false,
          bind, Option.bind_some, holePlace_cons, holeParent_cons, hf]
      rw [hstep, ih _ _ h (fun g hg => hpath g (by simp [hg])) (fun g hg => hlt g (by simp [hg]))
        (by simp at hfuel; omega)]
      by_cases hc : c = []
      · subst hc
        simp
      · simp [hc]

/-! ### Trading places with the predecessor -/

/-- The node above the hole of a path that hangs below `outer`. -/
def segParent (outer : Ptr) : Ctx RbElem → Ptr
  | [] => outer
  | f :: _ => some f.elem.1

/-- The nodes of a path that hangs below `outer` are in memory, and its hole holds `p`. -/
def ReprSeg (m : RbMem) (outer : Ptr) : Ptr → Ctx RbElem → Prop
  | _, [] => True
  | p, f :: c =>
      m.node f.elem.1 =
          some (mkLinks f.dir f.red (segParent outer c) p (ptr f.sib) f.elem.2) ∧
        ReprTree m (some f.elem.1) f.sib ∧ ReprSeg m outer (some f.elem.1) c

/-- A tree is in memory if the path to a subtree and the subtree are. -/
theorem repr_plug_seg {m : RbMem} {outer : Ptr} {c : Ctx RbElem} {t : ColTree RbElem} :
    ReprTree m outer (plug c t) ↔ ReprSeg m outer (ptr t) c ∧ ReprTree m (segParent outer c) t := by
  induction c generalizing t with
  | nil => simp [plug, ReprSeg, segParent]
  | cons f c ih =>
      rw [plug, ih, ptr_side, repr_side]
      simp only [ReprSeg, segParent]
      tauto

/-- **Frame rule**: a change away from the nodes of a path keeps it in memory. -/
theorem ReprSeg.frame {m m' : RbMem} {outer p : Ptr} {c : Ctx RbElem}
    (h : ReprSeg m outer p c) (hm : ∀ a ∈ ctxAddrs c, m'.node a = m.node a) :
    ReprSeg m' outer p c := by
  induction c generalizing p with
  | nil => trivial
  | cons f c ih =>
      obtain ⟨hf, hs, hc⟩ := h
      simp only [ctxAddrs, Ctx.elems, List.map_cons, List.map_append, List.mem_cons,
        List.mem_append] at hm
      exact ⟨(hm _ (.inl rfl)).trans hf, hs.frame fun a ha => hm a (.inr (.inl ha)),
        ih hc fun a ha => hm a (.inr (.inr ha))⟩

/-- Writing to the hole of a path. -/
theorem ReprSeg.store {m : RbMem} {outer p : Ptr} {c : Ctx RbElem} (h : ReprSeg m outer p c)
    (hne : c ≠ []) (hn : (ctxAddrs c).Nodup) (q : Ptr) :
    ∃ m', m.store q (holePlace c) = some m' ∧ ReprSeg m' outer q c ∧ m'.root = m.root ∧
      Changes m m' (ctxAddrs c) := by
  cases c with
  | nil => exact absurd rfl hne
  | cons f c =>
      obtain ⟨hf, hs, hc⟩ := h
      obtain ⟨m', hm', hf', hroot, hch⟩ := modify_spec hf fun n => n.setChild f.dir q
      rw [setChild_mkLinks] at hf'
      simp only [ctxAddrs, Ctx.elems, List.map_cons, List.map_append, List.nodup_cons,
        List.mem_append, not_or] at hn
      refine ⟨m', hm', ⟨hf', hs.frame fun a ha => hch.node a ?_,
        hc.frame fun a ha => hch.node a ?_⟩, hroot, hch.mono (by simp [ctxAddrs, Ctx.elems])⟩
      · rw [List.mem_singleton]
        rintro rfl
        exact hn.1.1 ha
      · rw [List.mem_singleton]
        rintro rfl
        exact hn.1.2 ha

/-- The root of a plugged path is a node of the path, whatever is plugged in. -/
theorem ptr_plug {c : Ctx RbElem} (hne : c ≠ []) :
    ∃ z ∈ ctxAddrs c, ∀ t, ptr (plug c t) = some z := by
  induction c with
  | nil => exact absurd rfl hne
  | cons f c ih =>
      by_cases hc : c = []
      · subst hc
        exact ⟨f.elem.1, by simp [ctxAddrs, Ctx.elems], fun t => ptr_side ..⟩
      · obtain ⟨z, hmem, hz⟩ := ih hc
        refine ⟨z, ?_, fun t => hz _⟩
        simp only [ctxAddrs, Ctx.elems, List.map_cons, List.map_append, List.mem_cons,
          List.mem_append] at hmem ⊢
        exact .inr (.inr hmem)

/-- The addresses of a node `x`, of a node `y` at the end of a path in its left subtree,
and of the subtrees around them. -/
theorem addrs_pair_perm {p : Ctx RbElem} {c₁ c₂ : Bool} {x y : RbElem}
    {L R₁ R₂ : ColTree RbElem} :
    (addrs (.node c₁ (plug p (.node c₂ L y R₁)) x R₂)).Perm
      (x.1 :: y.1 :: (addrs L ++ (addrs R₁ ++ (ctxAddrs p ++ addrs R₂)))) := by
  have hp : (addrs (plug p (.node c₂ L y R₁))).Perm
      (y.1 :: (addrs L ++ (addrs R₁ ++ ctxAddrs p))) := by
    refine ((toList_plug_perm p _).map Prod.fst).trans ?_
    simp [addrs, ctxAddrs, ColTree.toList, List.perm_middle]
  have ht : (addrs (.node c₁ (plug p (.node c₂ L y R₁)) x R₂)).Perm
      (x.1 :: (addrs (plug p (.node c₂ L y R₁)) ++ addrs R₂)) := by
    simp [addrs, ColTree.toList, List.perm_middle]
  refine ht.trans (List.Perm.cons _ ?_)
  refine (hp.append_right _).trans ?_
  simp

/-- Two nodes one below the other are apart from the rest if all the nodes differ. -/
theorem sep_pair {c p : Ctx RbElem} {c₁ c₂ : Bool} {x y : RbElem} {L R₁ R₂ : ColTree RbElem} :
    Sep c (.node c₁ (plug p (.node c₂ L y R₁)) x R₂) ↔
      (x.1 :: y.1 ::
        (addrs L ++ (addrs R₁ ++ (ctxAddrs p ++ addrs R₂))) ++ ctxAddrs c).Nodup :=
  (addrs_pair_perm.append_right _).nodup_iff

/-- The two nodes exchange their colours. -/
theorem Holds.swapColors {m : RbMem} {c p : Ctx RbElem} {red redp : Bool} {x y : RbElem}
    {L R : ColTree RbElem} (h : Holds m (plug c (.node red (plug p (.node redp L y .nil)) x R))) :
    ∃ m', m.swapColors y.1 x.1 = some m' ∧
      Holds m' (plug c (.node redp (plug p (.node red L y .nil)) x R)) ∧ SameDom m m' := by
  have hx := Holds.node_eq (c := c) (d := .left) h
  have hy' : ∀ {m red redp}, Holds m (plug c (.node red (plug p (.node redp L y .nil)) x R)) →
      Holds m (plug (p ++ ⟨.left, red, x, R⟩ :: c) (side .left redp y L .nil)) := by
    intro m red redp h
    rw [plug_append]
    exact h
  have hy := (hy' h).node_eq
  obtain ⟨m₁, e₁, h₁, ch₁⟩ := (hy' h).setRed red
  rw [plug_append] at h₁
  obtain ⟨m₂, e₂, h₂, ch₂⟩ := Holds.setRed (c := c) h₁ redp
  refine ⟨m₂, ?_, h₂, ch₁.toSameDom.trans ch₂.toSameDom⟩
  simp only [RbMem.swapColors, hy, hx, red_mkLinks, bind, Option.bind_some, e₁, e₂]

/-- The right subtree moves from the lower to the upper node. -/
theorem Holds.moveRight {m : RbMem} {c p : Ctx RbElem} {red redp : Bool} {x y : RbElem}
    {L R : ColTree RbElem} (h : Holds m (plug c (.node red (plug p (.node redp L x R)) y .nil))) :
    ∃ m', m.moveRight y.1 x.1 = some m' ∧
      Holds m' (plug c (.node red (plug p (.node redp L x .nil)) y R)) ∧ SameDom m m' := by
  obtain ⟨hc, ⟨hy, hleft, -⟩, hs⟩ := holds_plug.mp h
  obtain ⟨hseg, hx, hL, hR⟩ := repr_plug_seg.mp hleft
  have hnd := sep_pair.mp hs
  simp only [List.cons_append, List.nodup_cons, List.nodup_append', List.mem_cons,
    List.mem_append, not_or, List.disjoint_left] at hnd
  obtain ⟨m₁, e₁, hx₁, r₁, ch₁⟩ := modify_spec hx fun n => n.setChild .right none
  obtain ⟨m₂, e₂, hy₂, r₂, ch₂⟩ := modify_spec (ch₁.keep (by grind) hy)
    fun n => n.setChild .right (ptr R)
  have hR₂ : ReprTree m₂ (some x.1) R := hR.frame fun a ha => (ch₁.trans ch₂).node a (by grind)
  obtain ⟨m₃, e₃, hR₃, r₃, ch₃⟩ := hR₂.setParentIf (by grind) (some y.1)
  have ch := (ch₁.trans ch₂).trans ch₃
  have hptr : ptr (plug p (.node redp L x .nil)) = ptr (plug p (.node redp L x R)) := by
    by_cases hp : p = []
    · subst hp
      rfl
    · obtain ⟨z, -, hz⟩ := ptr_plug hp
      rw [hz, hz]
  refine ⟨m₃, ?_, holds_plug.mpr ⟨?_, ⟨?_, repr_plug_seg.mpr ⟨?_, ?_, ?_, trivial⟩, hR₃⟩, ?_⟩,
    ch.toSameDom⟩
  · simp only [RbMem.moveRight, hx, bind, Option.bind_some, RbMem.setChild, e₁, e₂, e₃]
  · exact hc.frame (by rw [r₃, r₂, r₁]) fun a ha => ch.node a (by grind)
  · rw [hptr]
    exact ch₃.keep (by grind) hy₂
  · exact hseg.frame fun a ha => ch.node a (by grind)
  · exact ch₃.keep (by grind) (ch₂.keep (by grind) hx₁)
  · exact hL.frame fun a ha => ch.node a (by grind)
  · rw [sep_pair] at hs ⊢
    refine (List.Perm.append_right _ (List.Perm.cons _ (List.Perm.cons _ ?_))).nodup_iff.mp hs
    simp only [addrs, ColTree.toList, List.map_nil, List.append_nil, List.nil_append]
    exact List.Perm.append_left _ List.perm_append_comm

/-- **Trading places with the left child**: `curr` becomes the left child of `pred`. -/
theorem Holds.swapAdjacent {m : RbMem} {c : Ctx RbElem} {red redp : Bool} {x y : RbElem}
    {L R : ColTree RbElem} (h : Holds m (plug c (.node redp (.node red L y .nil) x R))) :
    ∃ m', m.swapAdjacent (holePlace c) (holeParent c) y.1 x.1 = some m' ∧
      Holds m' (plug c (.node red (.node redp L x R) y .nil)) ∧ SameDom m m' := by
  obtain ⟨hc, ⟨hx, ⟨hy, hL, -⟩, hR⟩, hs⟩ := holds_plug.mp h
  have hnd := (sep_pair (p := [])).mp hs
  simp only [List.cons_append, List.nodup_cons, List.nodup_append', List.mem_cons,
    List.mem_append, not_or, List.disjoint_left] at hnd
  obtain ⟨m₁, e₁, hc₁, ch₁⟩ := hc.store (by grind) (some y.1)
  have hy₁ := ch₁.keep (by grind) hy
  obtain ⟨m₂, e₂, hy₂, r₂, ch₂⟩ := modify_spec hy₁ fun n => { n with parent := holeParent c }
  have hx₂ := ch₂.keep (by grind) (ch₁.keep (by grind) hx)
  obtain ⟨m₃, e₃, hx₃, r₃, ch₃⟩ := modify_spec hx₂ fun n => { n with parent := some y.1 }
  have hy₃ := ch₃.keep (by grind) hy₂
  obtain ⟨m₄, e₄, hy₄, r₄, ch₄⟩ := modify_spec hy₃ fun n => n.setChild .left (some x.1)
  have hx₄ := ch₄.keep (by grind) hx₃
  obtain ⟨m₅, e₅, hx₅, r₅, ch₅⟩ := modify_spec hx₄ fun n => n.setChild .left (ptr L)
  have ch₁₅ := (((ch₁.trans ch₂).trans ch₃).trans ch₄).trans ch₅
  have hL₅ : ReprTree m₅ (some y.1) L := hL.frame fun a ha => ch₁₅.node a (by grind)
  obtain ⟨m₆, e₆, hL₆, r₆, ch₆⟩ := hL₅.setParentIf (by grind) (some x.1)
  refine ⟨m₆, ?_, holds_plug.mpr ⟨?_, ⟨?_, ⟨?_, hL₆, ?_⟩, trivial⟩, ?_⟩,
    (ch₁₅.trans ch₆).toSameDom⟩
  · simp only [RbMem.swapAdjacent, bind, Option.bind_some, RbMem.setParent, RbMem.setChild,
      e₁, e₂, e₃, hy₃, e₄, e₅, e₆]
  · exact hc₁.frame (by rw [r₆, r₅, r₄, r₃, r₂]) fun a ha =>
      ((((ch₂.trans ch₃).trans ch₄).trans ch₅).trans ch₆).node a (by grind)
  · exact ch₆.keep (by grind) (ch₅.keep (by grind) hy₄)
  · exact ch₆.keep (by grind) hx₅
  · exact hR.frame fun a ha => (ch₁₅.trans ch₆).node a (by grind)
  · refine (sep_pair (p := [])).mpr ?_
    refine (List.Perm.append_right _ ?_).nodup_iff.mp ((sep_pair (p := [])).mp hs)
    refine (List.Perm.swap _ _ _).trans ?_
    simp [addrs, ColTree.toList, ctxAddrs, Ctx.elems]

/-- **Trading places with a predecessor further down**, which has no right child. -/
theorem Holds.swapApart {m : RbMem} {c p : Ctx RbElem} {red redp : Bool} {x y : RbElem}
    {L R : ColTree RbElem} (hne : p ≠ [])
    (h : Holds m (plug c (.node redp (plug p (.node red L y .nil)) x R))) :
    ∃ m', m.swapApart (holePlace c) (holeParent c) (holePlace p) y.1 x.1 = some m' ∧
      Holds m' (plug c (.node red (plug p (.node redp L x R)) y .nil)) ∧ SameDom m m' := by
  obtain ⟨hc, ⟨hx, hleft, hR⟩, hs⟩ := holds_plug.mp h
  obtain ⟨hseg, hy, hL, -⟩ := repr_plug_seg.mp hleft
  obtain ⟨z, -, hz⟩ := ptr_plug hne
  rw [hz] at hx
  have hnd := sep_pair.mp hs
  simp only [List.cons_append, List.nodup_cons, List.nodup_append', List.mem_cons,
    List.mem_append, not_or, List.disjoint_left] at hnd
  -- the parents of the two nodes and the links to them
  obtain ⟨m₁, e₁, hx₁, r₁, ch₁⟩ :=
    modify_spec hx fun n => { n with parent := segParent (some x.1) p }
  have hy₁ := ch₁.keep (by grind) hy
  obtain ⟨m₂, e₂, hy₂, r₂, ch₂⟩ := modify_spec hy₁ fun n => { n with parent := holeParent c }
  have hc₂ : ReprCtx m₂ (some x.1) c :=
    hc.frame (by rw [r₂, r₁]) fun a ha => (ch₁.trans ch₂).node a (by grind)
  obtain ⟨m₃, e₃, hc₃, ch₃⟩ := hc₂.store (by grind) (some y.1)
  have ch₁₃ := (ch₁.trans ch₂).trans ch₃
  have hseg₃ : ReprSeg m₃ (some x.1) (some y.1) p :=
    hseg.frame fun a ha => ch₁₃.node a (by grind)
  obtain ⟨m₄, e₄, hseg₄, r₄, ch₄⟩ := hseg₃.store hne (by grind) (some x.1)
  -- the left children
  have hx₄ := ch₄.keep (by grind) (ch₃.keep (by grind) (ch₂.keep (by grind) hx₁))
  have hy₄ := ch₄.keep (by grind) (ch₃.keep (by grind) hy₂)
  obtain ⟨m₅, e₅, hx₅, r₅, ch₅⟩ := modify_spec hx₄ fun n => n.setChild .left (ptr L)
  obtain ⟨m₆, e₆, hy₆, r₆, ch₆⟩ := modify_spec (ch₅.keep (by grind) hy₄)
    fun n => n.setChild .left (some z)
  have ch₄₆ := (ch₄.trans ch₅).trans ch₆
  have hL₆ : ReprTree m₆ (some y.1) L := hL.frame fun a ha => (ch₁₃.trans ch₄₆).node a (by grind)
  obtain ⟨m₇, e₇, hL₇, r₇, ch₇⟩ := hL₆.setParentIf (by grind) (some x.1)
  have hx₇ := ch₇.keep (by grind) (ch₆.keep (by grind) hx₅)
  have hR₇ : ReprTree m₇ (some x.1) R :=
    hR.frame fun a ha => ((ch₁₃.trans ch₄₆).trans ch₇).node a (by grind)
  -- `x` stands at the end of the path, which is now hung below `y`
  have hpath : ReprTree m₇ (some x.1) (plug p (.node redp L x R)) := by
    refine repr_plug_seg.mpr ⟨?_, hx₇, hL₇, hR₇⟩
    exact hseg₄.frame fun a ha => ((ch₅.trans ch₆).trans ch₇).node a (by grind)
  have hsep : Sep c (.node red (plug p (.node redp L x R)) y .nil) := by
    refine sep_pair.mpr ((List.Perm.append_right _ ?_).nodup_iff.mp (sep_pair.mp hs))
    refine (List.Perm.swap _ _ _).trans (List.Perm.cons _ (List.Perm.cons _ ?_))
    simp only [addrs, ColTree.toList, List.map_nil, List.append_nil, List.nil_append]
    exact List.Perm.append_left _ List.perm_append_comm
  have hpp : (addrs (plug p (.node redp L x R)) ++ (y.1 :: ctxAddrs c)).Nodup := by
    have := hsep
    rw [Sep, addrs, ColTree.toList, List.map_append] at this
    simpa [ColTree.toList, addrs] using this
  rw [List.nodup_append'] at hpp
  obtain ⟨m₈, e₈, hpath₈, r₈, ch₈⟩ := hpath.setParentIf hpp.1 (some y.1)
  have hkeep : ∀ a, a ∈ y.1 :: ctxAddrs c → a ∉ addrs (plug p (.node redp L x R)) :=
    fun a ha ha' => hpp.2.2 ha' ha
  rw [hz] at e₈
  refine ⟨m₈, ?_, holds_plug.mpr ⟨?_, ⟨?_, hpath₈, trivial⟩, hsep⟩,
    ((ch₁₃.trans ch₄₆).trans (ch₇.trans ch₈)).toSameDom⟩
  · simp only [RbMem.swapApart, hy, bind, Option.bind_some, RbMem.setParent, e₁, e₂, e₃, e₄,
      hx₄, hy₄, RbMem.setChild, e₅, e₆, e₇]
    exact e₈
  · refine hc₃.frame (by rw [r₈, r₇, r₆, r₅, r₄]) fun a ha => ?_
    rw [ch₈.node a (hkeep a (List.mem_cons_of_mem _ ha))]
    exact (ch₄₆.trans ch₇).node a (by grind)
  · rw [hz]
    exact ch₈.keep (hkeep _ (by simp)) (ch₇.keep (by grind) hy₆)

/-- The hole of a nonempty path does not depend on where the path hangs. -/
theorem holePlace_append {p : Ctx RbElem} (hne : p ≠ []) (C : Ctx RbElem) :
    holePlace (p ++ C) = holePlace p := by
  obtain ⟨f, p, rfl⟩ := List.exists_cons_of_ne_nil hne
  rfl

/-- **The first half of `rb_extract`.** A node `x` with two children trades places with
its predecessor `y`, found at the end of the path `p` in the left subtree. The slot that
the search from `y`'s left slot returns is that of `x`; the parent it returns is right
unless `y` is the left child of `x`, when it is `NULL`. -/
theorem swapWithPredecessor_spec {m : RbMem} {c : Ctx RbElem} {red : Bool} {a : Addr}
    {fd : ℤ} {l r : ColTree RbElem} (h : Holds m (plug c (.node red l (a, fd) r)))
    (hl : l ≠ .nil) (hlt : ∀ x ∈ l.toList, x.2 < fd)
    (htop : (plug c (.node red l (a, fd) r)).toList.length ≤ m.top) :
    ∃ m' p redp L y par,
      m.swapWithPredecessor (holePlace c) (holeParent c) a fd =
        some (m', holePlace (p ++ ⟨.left, red, y, r⟩ :: c), par) ∧
      (par = if p = [] then none else holeParent (p ++ ⟨.left, red, y, r⟩ :: c)) ∧
      l = plug p (.node redp L y .nil) ∧ RightPath p ∧
      Holds m' (plug (p ++ ⟨.left, red, y, r⟩ :: c) (.node redp L (a, fd) .nil)) ∧
      SameDom m m' := by
  have hlen := length_ctx_le (⟨.left, red, (a, fd), r⟩ :: c) l
  rw [show plug (⟨.left, red, (a, fd), r⟩ :: c) l = plug c (.node red l (a, fd) r) from rfl,
    List.length_cons] at hlen
  obtain ⟨p, redp, L, y, rfl, hpath, hpred⟩ := predecessorLoop_spec
    (m.top + 1) (C := ⟨.left, red, (a, fd), r⟩ :: c) h hl (by omega)
  have hload : m.load (holePlace (p ++ ⟨.left, red, (a, fd), r⟩ :: c)) = some (some y.1) := by
    refine ReprCtx.load (holds_plug (t := .node redp L y .nil).mp ?_).1
    rw [plug_append]
    exact h
  obtain ⟨m₁, e₁, h₁, hs₁⟩ := h.swapColors
  have ha₁ := Holds.node_eq (c := c) (d := .left) h₁
  -- both ways to trade places lead to the same tree
  obtain ⟨m₂, e₂, h₂, hs₂⟩ : ∃ m₂,
      (if (mkLinks .left redp (holeParent c) (ptr (plug p (.node red L y .nil))) (ptr r)
          fd).left = some y.1 then m₁.swapAdjacent (holePlace c) (holeParent c) y.1 a
        else m₁.swapApart (holePlace c) (holeParent c)
          (holePlace (p ++ ⟨.left, red, (a, fd), r⟩ :: c)) y.1 a) = some m₂ ∧
      Holds m₂ (plug c (.node red (plug p (.node redp L (a, fd) r)) y .nil)) ∧
      SameDom m₁ m₂ := by
    by_cases hp : p = []
    · subst hp
      rw [if_pos (by rfl)]
      exact Holds.swapAdjacent h₁
    · obtain ⟨z, hz, hptr⟩ := ptr_plug hp
      have hnd := sep_pair.mp (holds_plug.mp h₁).2.2
      simp only [List.cons_append, List.nodup_cons, List.mem_cons, List.mem_append,
        not_or] at hnd
      have hzy : z ≠ y.1 := by
        rintro rfl
        exact hnd.2.1.1.2.2.1 hz
      rw [hptr, if_neg (by simpa [mkLinks] using hzy), holePlace_append hp]
      exact Holds.swapApart hp h₁
  obtain ⟨m₃, e₃, h₃, hs₃⟩ := h₂.moveRight
  have hs := (hs₁.trans hs₂).trans hs₃
  have h₃' : Holds m₃ (plug (p ++ ⟨.left, red, y, r⟩ :: c) (.node redp L (a, fd) .nil)) := by
    rw [plug_append]
    exact h₃
  have hkeys : ∀ f ∈ p, f.elem.2 < fd := by
    intro f hf
    refine hlt _ ((toList_plug_perm p _).mem_iff.mpr (List.mem_append_right _ ?_))
    clear * - hf
    induction p with
    | nil => simp at hf
    | cons g p ih =>
        rw [Ctx.elems, List.mem_cons, List.mem_append]
        rcases List.mem_cons.mp hf with rfl | hf
        · exact .inl rfl
        · exact .inr (.inr (ih hf))
  have hprobe := rbProbeLoop_rightPath (m₃.top + 1) (C := ⟨.left, red, y, r⟩ :: c) none
    h₃' hpath hkeys (by
      have := length_ctx_le p (.node redp L y .nil)
      rw [hs.top]
      omega)
  refine ⟨m₃, p, redp, L, y, _, ?_, rfl, rfl, hpath, h₃', hs⟩
  rw [holePlace_cons] at hprobe
  simp only [RbMem.swapWithPredecessor, RbMem.predecessor, holePlace_cons] at hpred ⊢
  simp only [hpred, hload, bind, Option.bind_some, e₁, ha₁, e₂, e₃, RbMem.rbProbe, hprobe]

end IoEngine
