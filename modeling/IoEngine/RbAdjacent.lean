import IoEngine.RbMap

/-!
# The Defect of Extraction

`rb_extract` loses the parent of the node it removes when that node trades places with its
left child. Unless the left child was red, the repair then stops at once, and the tree that
remains is never a red-black tree: the left side of the former left child is one black node
short, or its new left child does not name it as its parent.

## Main results

* `ValidTree.extract_adjacent`: **the condition `adjacentBlackPred` is exact**: an
  extraction under it, if it returns, leaves an invalid tree.
-/

open RedBlack RedBlack.ColTree RedBlack.Ctx

namespace IoEngine

/-- A left child names its parent. -/
theorem not_valid_of_orphan {m : RbMem} {a b : Addr} {n k : RbLinks} (ha : m.node a = some n)
    (hl : n.left = some b) (hb : m.node b = some k) (hk : k.parent = none) : ¬ m.Valid := by
  rintro ⟨T, hT⟩
  obtain ⟨c, red, l, r, fd, rfl, rfl⟩ := hT.at_live ha
  cases l with
  | nil => simp at hl
  | node redl l' x r' =>
      obtain rfl : x.1 = b := by simpa [ptr] using hl
      have hx := Holds.node_eq (c := ⟨.left, red, (a, fd), r⟩ :: c) (d := .left) (x := x)
        (A := l') (B := r') hT.holds
      rw [hb, Option.some.injEq] at hx
      subst hx
      simp [mkLinks, holeParent] at hk

/-! ### The extraction -/

/-- Reading `adjacentBlackPred` at a known position. -/
theorem ValidTree.adjacent_shape {m : RbMem} {c : Ctx RbElem} {red : Bool} {a : Addr} {fd : ℤ}
    {l r : ColTree RbElem} (h : ValidTree m (plug c (.node red l (a, fd) r)))
    (ha : m.lookup fd = some a) (hadj : m.adjacentBlackPred fd = true) :
    r ≠ .nil ∧ ∃ L y, l = .node false L y .nil := by
  have hx := Holds.node_eq (c := c) (d := .left) h.holds
  cases l with
  | nil => simp [RbMem.adjacentBlackPred, ha, hx, mkLinks] at hadj
  | node redl L y ry =>
      have hy := Holds.node_eq (c := ⟨.left, red, (a, fd), r⟩ :: c) (d := .left) (x := y)
        (A := L) (B := ry) h.holds
      cases r with
      | nil => simp [RbMem.adjacentBlackPred, ha, hx, mkLinks, ptr] at hadj
      | node redr lr z rr =>
          refine ⟨by simp, L, y, ?_⟩
          simp only [RbMem.adjacentBlackPred, ha, hx, mkLinks, ptr, hy, bind,
            Option.bind_some, Option.getD_some, Bool.and_eq_true, Bool.not_eq_true',
            Option.isNone_iff_eq_none] at hadj
          obtain ⟨rfl, hnil⟩ := hadj
          cases ry with
          | nil => rfl
          | node => simp at hnil

/-- A path of right links in a tree whose root has no right child is empty. -/
theorem RightPath.eq_nil {p : Ctx RbElem} (h : RightPath p) {red red' : Bool}
    {L L' : ColTree RbElem} {y y' : RbElem}
    (he : ColTree.node red L y .nil = plug p (.node red' L' y' .nil)) : p = [] := by
  induction p using List.reverseRecOn with
  | nil => rfl
  | append_singleton p f _ =>
      have hr : plug (p ++ [f]) (.node red' L' y' .nil) =
          .node f.red f.sib f.elem (plug p (.node red' L' y' .nil)) := by
        rw [plug_append, plug, plug, h f (by simp)]
        rfl
      rw [hr, ColTree.node.injEq] at he
      have hlen := (toList_plug_perm p (.node red' L' y' .nil)).length_eq
      rw [← he.2.2.2] at hlen
      simp [toList] at hlen

/-- Without a parent the repair only blackens the node it is given. -/
theorem fixDelete_none (m : RbMem) (db : Ptr) :
    m.fixDelete db none = (m.isRed db).bind fun _ => m.blackenDb db := by
  unfold RbMem.fixDelete RbMem.fixDeleteLoop
  simp only [bind]
  congr 1
  funext b
  cases b <;> rfl

/-- The root of a tree of black height 1 is black or has children. -/
theorem ReprTree.root_tall {m : RbMem} {parent : Ptr} {t : ColTree RbElem} (h : ReprTree m parent t)
    (ht : Balanced t 1) : ∃ z k, ptr t = some z ∧ z ∈ addrs t ∧ m.node z = some k ∧
      (k.red = false ∨ k.left ≠ none) := by
  cases t with
  | nil => simp at ht
  | node red l z r =>
      refine ⟨z.1, _, rfl, by simp [addrs, toList], h.1, ?_⟩
      cases red with
      | false => exact .inl rfl
      | true =>
          obtain ⟨-, -, hl, -⟩ := ht
          cases l with
          | nil => simp at hl
          | node => exact .inr (by simp [ptr])

/-- **Unlinking without the parent** a black node that is a left child and has no right
child. -/
theorem unlink_orphans {m m' : RbMem} {c : Ctx RbElem} {red : Bool} {x y : RbElem}
    {L r : ColTree RbElem} (h : Holds m (plug (⟨.left, red, y, r⟩ :: c) (.node false L x .nil)))
    (hL : Balanced L 0) (hr : Balanced r 1)
    (hrun : m.unlink (.child y.1 .left) none x.1 = some m') : ¬ (m'.free x.1).Valid := by
  obtain ⟨⟨hy, hsib, -⟩, ⟨hx, hLr, -⟩, hs⟩ := holds_plug.mp h
  simp only [Sep, addrs, ctxAddrs, Ctx.elems, toList, List.map_append, List.map_cons,
    List.map_nil] at hs
  have hfree : ∀ {b o}, b ≠ x.1 → m'.node b = o → (m'.free x.1).node b = o :=
    fun hb ho => (Function.update_of_ne hb ..).trans ho
  obtain rfl | ⟨z, rfl⟩ := balanced_zero hL
  · -- the left side of `y` is one black node short
    obtain ⟨m₁, e₁, hy₁, -, ch₁⟩ := modify_spec hy fun n => n.setChild .left none
    obtain ⟨b, k, hb, hmem, hk, htall⟩ := ReprTree.root_tall hsib hr
    have hsep : y.1 ≠ x.1 ∧ b ≠ x.1 ∧ b ≠ y.1 := by
      simp only [addrs] at hmem
      grind
    obtain rfl : m' = m₁ := by
      simp only [RbMem.unlink, hx, bind, Option.bind_some, ptr_nil, Option.isSome_none,
        Bool.false_eq_true, if_false, RbMem.store, e₁, RbMem.setParentIf, fixDelete_none,
        RbMem.isRed, RbMem.blackenDb, Option.some.injEq] at hrun
      exact hrun.symm
    exact not_valid_of_short (hfree hsep.1 hy₁) rfl hb
      (hfree hsep.2.1 (ch₁.keep (by simpa using hsep.2.2) hk)) htall
  · -- the new left child of `y` has no parent
    obtain ⟨m₁, e₁, hy₁, -, ch₁⟩ := modify_spec hy fun n => n.setChild .left (some z.1)
    have hsep : y.1 ≠ x.1 ∧ z.1 ≠ x.1 ∧ z.1 ≠ y.1 := by
      simp only [toList] at hs
      grind
    have hz₁ := ch₁.keep (by simpa using hsep.2.2) hLr.1
    obtain ⟨m₂, e₂, hz₂, -, ch₂⟩ := modify_spec hz₁ fun n => { n with parent := none }
    obtain ⟨m₃, e₃, hz₃, -, ch₃⟩ := modify_spec hz₂ fun n => { n with red := false }
    obtain rfl : m' = m₃ := by
      simp only [RbMem.unlink, hx, bind, Option.bind_some, ptr_node, Option.isSome_some, if_true,
        RbMem.store, e₁, RbMem.setParentIf, RbMem.setParent, e₂, fixDelete_none, RbMem.isRed, hz₂,
        Option.map_some, RbMem.blackenDb, RbMem.setRed, e₃, Bool.false_eq_true, if_false,
        Option.some.injEq] at hrun
      exact hrun.symm
    have hy₃ := ch₃.keep (by simpa using hsep.2.2.symm)
      (ch₂.keep (by simpa using hsep.2.2.symm) hy₁)
    exact not_valid_of_orphan (hfree hsep.1 hy₃) rfl (hfree hsep.2.1 hz₃) rfl

/-- **The condition of extraction is exact.** A node whose left child is black and has no
right child is not extracted properly when it has a right child too. -/
theorem ValidTree.extract_adjacent {m m' : RbMem} {T : ColTree RbElem} {fd : ℤ} {a b : Addr}
    {q : RbPlace × Ptr} (h : ValidTree m T) (hp : m.rbProbe .root fd = some q)
    (ha : m.lookup fd = some a) (hadj : m.adjacentBlackPred fd = true)
    (hrun : m.rbExtract q.1 q.2 = some (b, m')) : ¬ (m'.free b).Valid := by
  obtain ⟨c, red, l, r, rfl, hp', -⟩ := h.position ha
  obtain rfl : q = (holePlace c, holeParent c) := by rw [hp] at hp'; exact Option.some.inj hp'
  obtain ⟨hr, L, y, rfl⟩ := h.adjacent_shape ha hadj
  have hload := (holds_plug.mp h.holds).1.load
  have hx := Holds.node_eq (c := c) (d := .left) h.holds
  obtain ⟨m₁, p, redp, L', y', par, e₁, hpar, he, hpath, h₁, hs₁⟩ :=
    swapWithPredecessor_spec h.holds (by simp) h.left_lt h.length_le
  obtain rfl := hpath.eq_nil he
  obtain ⟨rfl, rfl, rfl, -⟩ := (ColTree.node.injEq ..).mp he
  obtain ⟨j, -, hbal, -⟩ := fits_of_isRedBlack h.redBlack
  -- the two subtrees are of black height 1
  have hheights : Balanced L 0 ∧ Balanced r 1 := by
    cases red with
    | true =>
        obtain ⟨-, -, ⟨i, rfl, hL, hnil⟩, hbr⟩ := hbal
        rw [balanced_nil.mp hnil] at hL hbr
        exact ⟨hL, hbr⟩
    | false =>
        obtain ⟨k, -, ⟨i, rfl, hL, hnil⟩, hbr⟩ := hbal
        rw [balanced_nil.mp hnil] at hL hbr
        exact ⟨hL, hbr⟩
  obtain ⟨redr, z, l', r', rfl⟩ := exists_side hr .left
  simp only [RbMem.rbExtract, hload, ptr_node, hx, mkLinks, bind, Option.bind_some, ptr_side,
    Option.isSome_some, and_self, if_true, e₁, hpar] at hrun
  obtain ⟨m₂, hunl, hres⟩ := Option.bind_eq_some_iff.mp hrun
  obtain ⟨rfl, rfl⟩ := Prod.mk.inj (Option.some.inj hres)
  exact unlink_orphans h₁ hheights.1 hheights.2 hunl

end IoEngine
