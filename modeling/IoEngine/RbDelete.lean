import IoEngine.RbRepr

/-!
# The Repair After an Extraction

`fix_delete` works at a position whose subtree is short of one black node (the
"double-black" `db`). The lemmas follow its branches on trees — `Holds.redSibling`,
`Holds.nearToFar`, `Holds.closeDelete` — and `fixDeleteLoop_spec` follows the loop.

The loop climbs in one branch only. After a red sibling was rotated up it stays where it
is, but then the parent is red and the sibling black, so the next step is the last one or
is followed by the last one; that is why the induction is on the context alone
(`fixDelete_blackSibling` takes the continuation at the parent as a hypothesis, needed
only for a black parent).
-/

open RedBlack RedBlack.ColTree RedBlack.Ctx

namespace IoEngine

/-- What the repair after an extraction leaves: a memory that holds a red-black tree with
the given nodes in order. -/
structure Restored (m m' : RbMem) (l : List RbElem) (T : ColTree RbElem) : Prop where
  holds : Holds m' T
  redBlack : IsRedBlack T
  toList : T.toList = l
  same : SameDom m m'

/-- What is done before a repair, if it keeps the nodes, belongs to it. -/
theorem Restored.of_same {m₁ m₂ m₃ : RbMem} {l : List RbElem} {T : ColTree RbElem}
    (h₁ : SameDom m₁ m₂) (h₂ : Restored m₂ m₃ l T) : Restored m₁ m₃ l T :=
  ⟨h₂.holds, h₂.redBlack, h₂.toList, h₁.trans h₂.same⟩

/-! ### The branches -/

/-- Seen from the parent, the sibling's subtree can be put into focus. -/
theorem Holds.focus_far {m : RbMem} {c : Ctx RbElem} {d : Dir} {red : Bool} {p : RbElem}
    {t S : ColTree RbElem} :
    Holds m (plug (⟨d.opp, red, p, t⟩ :: c) S) ↔ Holds m (plug c (side d red p t S)) := by
  rw [plug, side_opp]

/-- The red sibling: `set_red(parent); set_black(sibling); rb_rotate(parent, dir)`. -/
theorem Holds.redSibling {m : RbMem} {c : Ctx RbElem} {d : Dir} {red : Bool} {p y : RbElem}
    {t Y₁ Y₂ : ColTree RbElem}
    (h : Holds m (plug (⟨d, red, p, side d true y Y₁ Y₂⟩ :: c) t)) :
    ∃ m₁ m₂ m', m.setRed p.1 true = some m₁ ∧ m₁.setRed y.1 false = some m₂ ∧
      m₂.rbRotate p.1 d = some m' ∧
      Holds m' (plug (⟨d, true, p, Y₁⟩ :: ⟨d, false, y, Y₂⟩ :: c) t) ∧ SameDom m m' := by
  obtain ⟨m₁, e₁, h₁, ch₁⟩ := Holds.setRed (c := c) h true
  obtain ⟨m₂, e₂, h₂, ch₂⟩ := (Holds.focus_far.mpr h₁).setRed false
  obtain ⟨m₃, e₃, h₃, ch₃⟩ := (Holds.focus_far.mp h₂).rotate
  exact ⟨m₁, m₂, m₃, e₁, e₂, e₃, h₃,
    (ch₁.toSameDom.trans ch₂.toSameDom).trans ch₃.toSameDom⟩

/-- The near red child of the sibling is moved to the far side. -/
theorem Holds.nearToFar {m : RbMem} {c : Ctx RbElem} {d : Dir} {red : Bool}
    {p y z : RbElem} {t Z₁ Z₂ Y₂ : ColTree RbElem}
    (h : Holds m (plug c (side d red p t (side d false y (side d true z Z₁ Z₂) Y₂)))) :
    ∃ m', m.nearToFar p.1 y.1 d = some (m', z.1) ∧
      Holds m' (plug c (side d red p t (side d false z Z₁ (side d true y Z₂ Y₂)))) ∧
      SameDom m m' := by
  have hy := Holds.focus_far.mpr h
  have hyn := hy.node_eq
  rw [ptr_side] at hyn
  have hz : Holds m (plug (⟨d, false, y, Y₂⟩ :: ⟨d.opp, red, p, t⟩ :: c)
      (side d true z Z₁ Z₂)) := hy
  obtain ⟨m₁, e₁, h₁, ch₁⟩ := hz.setRed false
  have hy₁ : Holds m₁ (plug (⟨d.opp, red, p, t⟩ :: c)
      (side d false y (side d false z Z₁ Z₂) Y₂)) := h₁
  obtain ⟨m₂, e₂, h₂, ch₂⟩ := hy₁.setRed true
  have hy₂ : Holds m₂ (plug (⟨d.opp, red, p, t⟩ :: c)
      (side d.opp true y Y₂ (side d.opp false z Z₂ Z₁))) := by
    simpa only [side_opp] using h₂
  obtain ⟨m₃, e₃, h₃, ch₃⟩ := hy₂.rotate
  have h₃' : Holds m₃
      (plug c (side d red p t (side d false z Z₁ (side d true y Z₂ Y₂)))) := by
    refine Holds.focus_far.mp ?_
    simpa only [side_opp] using h₃
  refine ⟨m₃, ?_, h₃', (ch₁.toSameDom.trans ch₂.toSameDom).trans ch₃.toSameDom⟩
  simp only [RbMem.nearToFar, hyn, child_mkLinks, bind, Option.bind_some, e₁, e₂, e₃,
    h₃'.node_eq, child_opp_mkLinks, ptr_side]

/-- The closing rotation: the far red child of the sibling pays for the missing black. -/
theorem Holds.closeDelete {m : RbMem} {c : Ctx RbElem} {d e : Dir} {red : Bool}
    {p y z : RbElem} {t Y₁ Z₁ Z₂ : ColTree RbElem}
    (h : Holds m (plug c (side d red p t (side d false y Y₁ (side e true z Z₁ Z₂))))) :
    ∃ m', m.closeDelete p.1 y.1 d = some m' ∧
      Holds m' (plug c (side d red y (side d false p t Y₁) (side e false z Z₁ Z₂))) ∧
      SameDom m m' := by
  have hy := Holds.focus_far.mpr h
  have hyn := hy.node_eq
  rw [ptr_side] at hyn
  obtain ⟨m₁, e₁, h₁, ch₁⟩ := (Holds.focus_far.mpr hy).setRed false
  have hp₁ : Holds m₁ (plug c (side d red p t (side d false y Y₁ (side e false z Z₁ Z₂)))) :=
    Holds.focus_far.mp (Holds.focus_far.mp h₁)
  obtain ⟨m₂, e₂, h₂, ch₂⟩ := hp₁.setRed false
  obtain ⟨m₃, e₃, h₃, ch₃⟩ := (Holds.focus_far.mpr h₂).setRed red
  obtain ⟨m₄, e₄, h₄, ch₄⟩ := (Holds.focus_far.mp h₃).rotate
  refine ⟨m₄, ?_, h₄,
    ((ch₁.toSameDom.trans ch₂.toSameDom).trans ch₃.toSameDom).trans ch₄.toSameDom⟩
  simp only [RbMem.closeDelete, hyn, child_opp_mkLinks, ptr_side, bind, Option.bind_some, e₁,
    RbMem.swapColors, hp₁.node_eq, (Holds.focus_far.mpr hp₁).node_eq, red_mkLinks, e₂, e₃, e₄]

/-- `if (db) set_black(db)` when `db` is the subtree at the position. -/
theorem Holds.blackenDb {m : RbMem} {c : Ctx RbElem} {t : ColTree RbElem}
    (h : Holds m (plug c t)) :
    ∃ m', m.blackenDb (ptr t) = some m' ∧ Holds m' (plug c t.blacken) ∧ SameDom m m' := by
  cases t with
  | nil => exact ⟨m, rfl, h, SameDom.refl m⟩
  | node red l x r =>
      obtain ⟨m', e', h', hch⟩ := Holds.setRed (d := .left) h false
      exact ⟨m', e', h', hch.toSameDom⟩

/-! ### The loop -/

/-- The loop stops at a red `db` and colours it black. -/
theorem fixDelete_redDb {m : RbMem} {c : Ctx RbElem} {t : ColTree RbElem} {n : ℕ} (fuel : ℕ)
    (h : Holds m (plug c t)) (hf : Fits c n) (ht : Balanced t.blacken n)
    (hr : t.isRed = true) :
    ∃ m' T, RbMem.fixDeleteLoop (fuel + 1) m (ptr t) (holeParent c) = some m' ∧
      Restored m m' (plug c t).toList T := by
  obtain ⟨m', e', h', hs⟩ := h.blackenDb
  refine ⟨m', _, ?_, h', isRedBlack_plug hf ht fun hb => ?_, ?_, hs⟩
  · simp only [RbMem.fixDeleteLoop, h.isRed_eq, hr, bind, Option.bind_some, if_true, e']
  · simp at hb
  · simp [toList_plug]

/-- The direction of `db` is found by comparing with the right child. -/
theorem dirToDb_eq {m : RbMem} {f : Frame RbElem} {c : Ctx RbElem} {t : ColTree RbElem}
    (h : Holds m (plug (f :: c) t)) (hs : f.sib ≠ .nil) :
    (if (mkLinks f.dir f.red (holeParent c) (ptr t) (ptr f.sib) f.elem.2).right = ptr t
      then Dir.right else Dir.left) = f.dir := by
  refine dir_mkLinks _ _ _ _ _ ?_
  cases t with
  | nil =>
      obtain ⟨red, y, l, r, hy⟩ := exists_side hs .left
      simp [hy]
  | node red l x r => exact Holds.ptr_ne (c := c) h (by simp)

/-- One round of the loop at a black sibling `y` of the double-black node. -/
theorem Holds.fixDeleteLoop_black {m : RbMem} {c : Ctx RbElem} {d : Dir} {red : Bool}
    {p y : RbElem} {t Y₁ Y₂ : ColTree RbElem} (fuel : ℕ)
    (h : Holds m (plug (⟨d, red, p, side d false y Y₁ Y₂⟩ :: c) t)) (hb : t.isRed = false) :
    RbMem.fixDeleteLoop (fuel + 2) m (ptr t) (some p.1) =
      if Y₂.isRed then m.closeDelete p.1 y.1 d
      else if Y₁.isRed then (do
        let r ← m.nearToFar p.1 y.1 d
        r.1.closeDelete p.1 r.2 d)
      else (do
        let m ← m.setRed y.1 true
        let pn ← m.node p.1
        RbMem.fixDeleteLoop (fuel + 1) m (some p.1) pn.parent) := by
  have hp := Holds.node_eq (c := c) (d := d) h
  have hdir := dirToDb_eq h (by simp)
  have hs : Holds m (plug (⟨d.opp, red, p, t⟩ :: c) (side d false y Y₁ Y₂)) :=
    Holds.focus_far.mpr h
  have hy := hs.node_eq
  have hfar : m.isRed (ptr Y₂) = some Y₂.isRed := (Holds.focus_far.mpr hs).isRed_eq
  have hnear : m.isRed (ptr Y₁) = some Y₁.isRed :=
    Holds.isRed_eq (c := ⟨d, false, y, Y₂⟩ :: ⟨d.opp, red, p, t⟩ :: c) hs
  have hyr : m.isRed (some y.1) = some false := by simp [RbMem.isRed, hy]
  rw [ptr_side] at hp hdir
  rw [RbMem.fixDeleteLoop]
  simp only [h.isRed_eq, hb, hp, hdir, hyr, hy, hfar, hnear, child_opp_mkLinks,
    child_mkLinks, bind, Option.bind_some, Bool.false_eq_true, if_false]

/-- One step of the loop at a black `db` with a black sibling. The continuation at the
parent is needed only when the parent is black. -/
theorem fixDelete_blackSibling {m : RbMem} {c : Ctx RbElem} {d : Dir} {red : Bool}
    {p y : RbElem} {t Y₁ Y₂ : ColTree RbElem} {n : ℕ} (fuel : ℕ)
    (h : Holds m (plug (⟨d, red, p, side d false y Y₁ Y₂⟩ :: c) t))
    (hf : Fits (⟨d, red, p, side d false y Y₁ Y₂⟩ :: c) (n + 1)) (ht : Balanced t n)
    (hb : t.isRed = false)
    (hcont : red = false → ∀ m₁,
      Holds m₁ (plug c (side d false p t (side d true y Y₁ Y₂))) →
      Balanced (side d false p t (side d true y Y₁ Y₂)) (n + 1) →
      ∃ m' T, RbMem.fixDeleteLoop (fuel + 1) m₁ (some p.1) (holeParent c) = some m' ∧
        Restored m₁ m' (plug c (side d false p t (side d true y Y₁ Y₂))).toList T) :
    ∃ m' T, RbMem.fixDeleteLoop (fuel + 2) m (ptr t) (some p.1) = some m' ∧
      Restored m m' (plug (⟨d, red, p, side d false y Y₁ Y₂⟩ :: c) t).toList T := by
  have hs : Holds m (plug (⟨d.opp, red, p, t⟩ :: c) (side d false y Y₁ Y₂)) :=
    Holds.focus_far.mpr h
  obtain ⟨hY₁, hY₂⟩ := blackSibling_balanced hf
  obtain ⟨hfit, hallow⟩ := fits_tail hf
  rw [h.fixDeleteLoop_black fuel hb]
  cases hr₂ : Y₂.isRed with
  | true =>
      obtain ⟨redZ, z, Z₁, Z₂, rfl⟩ := exists_side (ne_nil_of_isRed hr₂) .left
      obtain rfl : redZ = true := by simpa using hr₂
      obtain ⟨m', e', h', hsame⟩ := Holds.closeDelete (c := c) h
      have hbal := balanced_closing d red y
        (L := side d false p t Y₁) (R := side .left false z Z₁ Z₂) (by simp) (by simp)
        (by simpa using ⟨ht, hY₁⟩) (by simpa using hY₂.blacken_of_isRed hr₂)
      refine ⟨m', _, by simpa using e', h', isRedBlack_plug hfit hbal ?_, ?_, hsame⟩
      · simpa using hallow
      · simp only [plug, toList_plug]
        congr 2
        rw [toList_rotate d red false red false]
        exact toList_side_congr _ _ _ _ rfl
          (toList_side_congr _ _ _ _ rfl (toList_side_congr _ _ _ _ rfl rfl))
  | false =>
      simp only [Bool.false_eq_true, if_false]
      cases hr₁ : Y₁.isRed with
      | true =>
          obtain ⟨redZ, z, Z₁, Z₂, rfl⟩ := exists_side (ne_nil_of_isRed hr₁) d
          obtain rfl : redZ = true := by simpa using hr₁
          obtain ⟨m₁, e₁, h₁, hsame₁⟩ := Holds.nearToFar (c := c) h
          obtain ⟨m', e', h', hsame'⟩ := h₁.closeDelete
          obtain ⟨-, -, hZ₁, hZ₂⟩ := (balanced_side_red ..).mp hY₁
          have hbal := balanced_closing d red z
            (L := side d false p t Z₁) (R := side d false y Z₂ Y₂) (by simp) (by simp)
            (by simpa using ⟨ht, hZ₁⟩) (by simpa using ⟨hZ₂, hY₂⟩)
          refine ⟨m', _, ?_, h', isRedBlack_plug hfit hbal ?_, ?_, hsame₁.trans hsame'⟩
          · simp only [if_true, e₁, bind, Option.bind_some, e']
          · simpa using hallow
          · simp only [plug, toList_plug]
            congr 2
            cases d <;> simp [side, ColTree.toList]
      | false =>
          obtain ⟨m₁, e₁, h₁, ch₁⟩ := hs.setRed true
          have h₁' := Holds.focus_far.mp h₁
          have hred := balanced_redden (d := d) (p := p) (y := y) ht hY₁ hY₂ hr₁ hr₂
          have hlist : (plug (⟨d, red, p, side d false y Y₁ Y₂⟩ :: c) t).toList =
              (plug c (side d red p t (side d true y Y₁ Y₂))).toList := by
            simp only [plug, toList_plug]
            congr 2
            exact toList_side_congr _ _ _ _ rfl (toList_side_congr _ _ _ _ rfl rfl)
          have heq : (do
              let m ← m.setRed y.1 true
              let pn ← m.node p.1
              RbMem.fixDeleteLoop (fuel + 1) m (some p.1) pn.parent) =
              RbMem.fixDeleteLoop (fuel + 1) m₁ (some p.1) (holeParent c) := by
            simp only [e₁, bind, Option.bind_some, h₁'.node_eq, parent_mkLinks]
          rw [heq, hlist]
          cases red with
          | false =>
              obtain ⟨m', T, e', hr⟩ := hcont rfl m₁ h₁' hred
              exact ⟨m', T, by simpa using e', hr.of_same ch₁.toSameDom⟩
          | true =>
              obtain ⟨m', T, e', hr⟩ := fixDelete_redDb fuel h₁' hfit
                (by simpa using hred) (isRed_side ..)
              rw [ptr_side] at e'
              exact ⟨m', T, by simpa using e', hr.of_same ch₁.toSameDom⟩

/-- **The loop of `fix_delete`.** At a position whose subtree is short of one black node
the loop ends, never meets a missing sibling, and restores a red-black tree with the same
nodes. -/
theorem fixDeleteLoop_spec {m : RbMem} {c : Ctx RbElem} {t : ColTree RbElem} {n : ℕ} (fuel : ℕ)
    (h : Holds m (plug c t)) (hf : Fits c (n + 1)) (ht : Balanced t n)
    (hfuel : c.length + 3 ≤ fuel) :
    ∃ m' T, RbMem.fixDeleteLoop fuel m (ptr t) (holeParent c) = some m' ∧
      Restored m m' (plug c t).toList T := by
  induction c generalizing m t n fuel with
  | nil =>
      obtain ⟨fuel, rfl⟩ : ∃ k, fuel = k + 1 := ⟨fuel - 1, by simp at hfuel; omega⟩
      cases hr : t.isRed with
      | true => exact fixDelete_redDb _ h hf (ht.blacken_of_isRed hr) hr
      | false =>
          obtain ⟨m', e', h', hs⟩ := h.blackenDb
          rw [blacken_eq_self hr] at h'
          refine ⟨m', t, ?_, h', ⟨hr, n, ht⟩, rfl, hs⟩
          simp only [RbMem.fixDeleteLoop, h.isRed_eq, hr, bind, Option.bind_some,
            Bool.false_eq_true, if_false, holeParent, e']
  | cons f c ih =>
      obtain ⟨fuel, rfl⟩ : ∃ k, fuel = k + 3 := ⟨fuel - 3, by simp at hfuel; omega⟩
      simp only [List.length_cons] at hfuel
      obtain ⟨d, red, p, S⟩ := f
      cases hr : t.isRed with
      | true => exact fixDelete_redDb _ h hf (ht.blacken_of_isRed hr) hr
      | false =>
          obtain ⟨redS, y, Y₁, Y₂, rfl⟩ := exists_side (sib_ne_nil hf) d
          cases redS with
          | false =>
              refine fixDelete_blackSibling _ h hf ht hr fun hred m₁ h₁ hbal => ?_
              subst hred
              have hloop := ih (fuel + 2) h₁ (fits_cons_black.mp hf).2 hbal (by omega)
              rwa [ptr_side] at hloop
          | true =>
              -- the rotation leaves a red parent and a black sibling, and then no climbing
              obtain ⟨rfl, hY₁, hf'⟩ := fits_redSibling hf
              obtain ⟨m₁, m₂, m₃, e₁, e₂, e₃, h₃, hs₃⟩ := h.redSibling
              obtain ⟨redY, z, Z₁, Z₂, rfl⟩ := exists_side (sib_ne_nil hf') d
              obtain rfl : redY = false := by simpa using hY₁
              obtain ⟨m', T, e', hrest⟩ := fixDelete_blackSibling fuel h₃ hf' ht hr
                fun hred => by simp at hred
              have hp := Holds.node_eq (c := c) (d := d) h
              have hdir := dirToDb_eq h (by simp)
              have hy := ((Holds.focus_far (c := c) (d := d)).mpr h).node_eq
              have hyr : m.isRed (some y.1) = some true := by simp [RbMem.isRed, hy]
              rw [ptr_side] at hp hdir
              refine ⟨m', T, ?_, ?_⟩
              · rw [show holeParent (⟨d, false, p, side d true y (side d false z Z₁ Z₂) Y₂⟩ :: c)
                  = some p.1 from rfl, RbMem.fixDeleteLoop]
                simp only [h.isRed_eq, hr, hp, hdir, hyr, child_opp_mkLinks, bind,
                  Option.bind_some, Bool.false_eq_true, if_false, if_true, e₁, e₂, e₃, e']
              · have hlist : (plug (⟨d, false, p, side d true y (side d false z Z₁ Z₂) Y₂⟩ :: c)
                    t).toList =
                    (plug (⟨d, true, p, side d false z Z₁ Z₂⟩ :: ⟨d, false, y, Y₂⟩ :: c)
                      t).toList := by
                  simp only [plug, toList_plug]
                  congr 2
                  exact (toList_rotate d _ _ _ _ _ _ _ _ _).symm
                rw [hlist]
                exact hrest.of_same hs₃

end IoEngine
