import IoEngine.RbRepr

/-!
# Insertion Into the Pointer Tree

`rb_insert` links a new red node and repairs the colours from there upwards
(`fix_insert`). Each branch of the loop is one lemma on trees — `Holds.recolour`,
`Holds.straight`, `Holds.mixed` — and `fixInsertLoop_spec` follows the loop by induction
on the context, with the invariant that the tree is red-black but for one red node below
a red parent.

## Main results

* `fixInsertLoop_spec`: the loop ends, keeps the order of the nodes, and leaves a
  red-black tree once the root is black.
* `rbInsert_spec`: **insertion**: `rb_insert` of a fresh node at the hole of a red-black
  tree gives a red-black tree with that node in its place.

The slot that received the node still holds it afterwards, unless the very first step is
a mixed rotation (`Mixed`). That is what the callers of `rb_insert` that write through
the slot again depend on.
-/

open RedBlack RedBlack.ColTree RedBlack.Ctx

namespace IoEngine

/-! ### The three steps -/

/-- The recolouring step of `fix_insert`. -/
theorem Holds.recolour {m : RbMem} {c : Ctx RbElem} {d₁ d₂ e : Dir} {p g u : RbElem}
    {t s U₁ U₂ : ColTree RbElem}
    (h : Holds m (plug (⟨d₁, true, p, s⟩ :: ⟨d₂, false, g, side e true u U₁ U₂⟩ :: c) t)) :
    ∃ m₁ m₂ m', m.setRed u.1 false = some m₁ ∧ m₁.setRed p.1 false = some m₂ ∧
      m₂.setRed g.1 true = some m' ∧
      Holds m' (plug c (side d₂ true g (side d₁ false p t s) (side e false u U₁ U₂))) ∧
      SameDom m m' := by
  have hu : Holds m
      (plug (⟨d₂.opp, false, g, side d₁ true p t s⟩ :: c) (side e true u U₁ U₂)) := by
    simpa only [plug, side_opp] using h
  obtain ⟨m₁, e₁, h₁, ch₁⟩ := hu.setRed false
  have hp : Holds m₁
      (plug (⟨d₂, false, g, side e false u U₁ U₂⟩ :: c) (side d₁ true p t s)) := by
    simpa only [plug, side_opp] using h₁
  obtain ⟨m₂, e₂, h₂, ch₂⟩ := hp.setRed false
  obtain ⟨m₃, e₃, h₃, ch₃⟩ := Holds.setRed (c := c) h₂ true
  exact ⟨m₁, m₂, m₃, e₁, e₂, e₃, h₃,
    (ch₁.toSameDom.trans ch₂.toSameDom).trans ch₃.toSameDom⟩

/-- The simple rotation of `fix_insert`. -/
theorem Holds.straight {m : RbMem} {c : Ctx RbElem} {d : Dir} {p g : RbElem}
    {t s U : ColTree RbElem}
    (h : Holds m (plug (⟨d, true, p, s⟩ :: ⟨d, false, g, U⟩ :: c) t)) :
    ∃ m', (do
        let m ← m.rbRotate g.1 d.opp
        let m ← m.setRed g.1 true
        m.setRed p.1 false) = some m' ∧
      Holds m' (plug c (side d false p t (side d true g s U))) ∧ SameDom m m' := by
  have hg : Holds m (plug c (side d.opp false g U (side d.opp true p s t))) := by
    simpa only [plug, side_opp] using h
  obtain ⟨m₁, e₁, h₁, ch₁⟩ := hg.rotate
  have hg₁ : Holds m₁ (plug (⟨d.opp, true, p, t⟩ :: c) (side d.opp false g U s)) := h₁
  obtain ⟨m₂, e₂, h₂, ch₂⟩ := hg₁.setRed true
  obtain ⟨m₃, e₃, h₃, ch₃⟩ := Holds.setRed (c := c) h₂ false
  refine ⟨m₃, by simp only [e₁, e₂, e₃, bind, Option.bind_some], ?_,
    (ch₁.toSameDom.trans ch₂.toSameDom).trans ch₃.toSameDom⟩
  simpa only [side_opp] using h₃

/-- The mixed rotation of `fix_insert`: first the parent, then the grandparent. -/
theorem Holds.mixed {m : RbMem} {c : Ctx RbElem} {d : Dir} {x p g : RbElem}
    {A B s U : ColTree RbElem}
    (h : Holds m (plug (⟨d.opp, true, p, s⟩ :: ⟨d, false, g, U⟩ :: c) (side d true x A B))) :
    ∃ m', (do
        let m ← m.rbRotate p.1 d
        let m ← m.rbRotate g.1 d.opp
        let m ← m.setRed g.1 true
        m.setRed x.1 false) = some m' ∧
      Holds m' (plug c (side d false x (side d true p s A) (side d true g B U))) ∧
      SameDom m m' := by
  have hp : Holds m
      (plug (⟨d, false, g, U⟩ :: c) (side d true p s (side d true x A B))) := by
    simpa only [plug, side_opp] using h
  obtain ⟨m₁, e₁, h₁, ch₁⟩ := hp.rotate
  have hg : Holds m₁
      (plug c (side d.opp false g U (side d.opp true x B (side d true p s A)))) := by
    simpa only [plug, side_opp] using h₁
  obtain ⟨m₂, e₂, h₂, ch₂⟩ := hg.rotate
  have hg₂ : Holds m₂
      (plug (⟨d.opp, true, x, side d true p s A⟩ :: c) (side d.opp false g U B)) := h₂
  obtain ⟨m₃, e₃, h₃, ch₃⟩ := hg₂.setRed true
  obtain ⟨m₄, e₄, h₄, ch₄⟩ := Holds.setRed (c := c) h₃ false
  refine ⟨m₄, by simp only [e₁, e₂, e₃, e₄, bind, Option.bind_some], ?_,
    ((ch₁.toSameDom.trans ch₂.toSameDom).trans ch₃.toSameDom).trans ch₄.toSameDom⟩
  simpa only [side_opp] using h₄

/-! ### The loop -/

/-- The first step of `fix_insert` at this position is a mixed rotation: the parent is
red, the uncle is not, and the node and its parent hang on different sides. -/
def Mixed : Ctx RbElem → Prop
  | f :: g :: _ => f.red = true ∧ g.sib.isRed = false ∧ f.dir ≠ g.dir
  | _ => False

/-- A mixed rotation is made below a red parent. -/
theorem Mixed.headRed {c : Ctx RbElem} (h : Mixed c) : headRed c = true := by
  rcases c with - | ⟨f, - | ⟨g, c⟩⟩
  · cases h
  · cases h
  · exact h.1

/-- What the repair after inserting the red node `x` with subtrees `A` and `B` in the
context `c` leaves: a memory that holds a tree with the same order of nodes, red-black
but for the root's colour; the subtrees are kept, and the link to `x` is kept exactly when the
first step was not a mixed rotation. -/
structure Repaired (m m' : RbMem) (c : Ctx RbElem) (x : RbElem) (A B : ColTree RbElem)
    (T : ColTree RbElem) : Prop where
  holds : Holds m' T
  redBlack : IsRedBlack T.blacken
  keptA : Kept m' A
  keptB : Kept m' B
  slot : m'.load (holePlace c) = some (some x.1) ↔ ¬ Mixed c
  same : SameDom m m'

/-- The root of a tree is one of its nodes. -/
theorem ptr_ne_of_not_mem {t : ColTree RbElem} {a : Addr} (h : a ∉ addrs t) : ptr t ≠ some a := by
  cases t with
  | nil => simp
  | node red l x r =>
      rw [ptr_node, ne_eq, Option.some.injEq]
      rintro rfl
      simp [addrs, toList] at h

/-- The mixed step, with the two subtrees of the node on either side. -/
theorem Repaired.of_mixed {m : RbMem} {c : Ctx RbElem} {d e : Dir} {x p g : RbElem}
    {A B s U : ColTree RbElem} {n : ℕ}
    (h : Holds m (plug (⟨d.opp, true, p, s⟩ :: ⟨d, false, g, U⟩ :: c) (side e true x A B)))
    (hf : Fits (⟨d.opp, true, p, s⟩ :: ⟨d, false, g, U⟩ :: c) n)
    (ht : Balanced (side e true x A B) n) (hU : U.isRed = false) :
    ∃ m' T, (do
        let m ← m.rbRotate p.1 d
        let m ← m.rbRotate g.1 d.opp
        let m ← m.setRed g.1 true
        m.setRed x.1 false) = some m' ∧
      T.toList =
        (plug (⟨d.opp, true, p, s⟩ :: ⟨d, false, g, U⟩ :: c) (side e true x A B)).toList ∧
      Repaired m m' (⟨d.opp, true, p, s⟩ :: ⟨d, false, g, U⟩ :: c) x A B T := by
  -- both subtrees are treated alike, so it is enough to look from the parent's side
  suffices key : ∀ A B : ColTree RbElem,
      Holds m (plug (⟨d.opp, true, p, s⟩ :: ⟨d, false, g, U⟩ :: c) (side d true x A B)) →
      Balanced (side d true x A B) n →
      ∃ m' T, (do
          let m ← m.rbRotate p.1 d
          let m ← m.rbRotate g.1 d.opp
          let m ← m.setRed g.1 true
          m.setRed x.1 false) = some m' ∧
        T.toList =
          (plug (⟨d.opp, true, p, s⟩ :: ⟨d, false, g, U⟩ :: c) (side d true x A B)).toList ∧
        Repaired m m' (⟨d.opp, true, p, s⟩ :: ⟨d, false, g, U⟩ :: c) x A B T by
    rcases Dir.eq_or_eq_opp d e with rfl | rfl
    · exact key A B h ht
    · rw [side_opp] at h ht ⊢
      obtain ⟨m', T, hm', hT, hr⟩ := key B A h ht
      exact ⟨m', T, hm', hT, hr.holds, hr.redBlack, hr.keptB, hr.keptA, hr.slot, hr.same⟩
  intro A B h ht
  obtain ⟨m', e', h', hsame⟩ := h.mixed
  obtain ⟨hbal, hfit⟩ := balanced_mixed (d := d) hf ht hU
  have hrb := isRedBlack_plug hfit hbal fun hr => by simp at hr
  refine ⟨m', _, e', ?_, h', ?_, h'.kept.near.far, h'.kept.far.near, ?_, hsame⟩
  · simp only [plug, toList_plug, side_opp]
    congr 2
    cases d <;> simp [side, toList, List.append_assoc]
  · rwa [blacken_eq_self hrb.1]
  · -- the slot is now below `x`, and holds the subtree `A`
    refine iff_of_false ?_ (not_not_intro ⟨rfl, hU, Dir.opp_ne d⟩)
    have hp : m'.node p.1 = some (mkLinks d true (some x.1) (ptr s) (ptr A) p.2) :=
      Holds.node_eq (c := ⟨d, false, x, side d true g B U⟩ :: c) h'
    have hx : x.1 ∉ addrs A := by
      have hs := sep_side.mp (holds_plug.mp h').2.2
      simp only [List.cons_append, List.nodup_cons, List.mem_append, not_or] at hs
      have hm := hs.1.1.1
      rw [addrs, ((toList_side_perm d true p s A).map Prod.fst).mem_iff] at hm
      simp only [List.map_cons, List.map_append, List.mem_cons, List.mem_append, not_or] at hm
      exact hm.2.2
    simpa [RbMem.load, holePlace, hp] using ptr_ne_of_not_mem hx

/-- One round of the loop at a red parent `p` with the grandparent `g` and the uncle `U`. -/
theorem Holds.fixInsertLoop_red {fuel : ℕ} {m : RbMem} {c : Ctx RbElem} {d₁ d₂ e : Dir}
    {x p g : RbElem} {A B s U : ColTree RbElem}
    (h : Holds m (plug (⟨d₁, true, p, s⟩ :: ⟨d₂, false, g, U⟩ :: c) (side e true x A B))) :
    RbMem.fixInsertLoop (fuel + 1) m x.1 (some p.1) =
      if U.isRed then (do
        let u ← ptr U
        let m ← m.setRed u false
        let m ← m.setRed p.1 false
        let m ← m.setRed g.1 true
        let gn ← m.node g.1
        RbMem.fixInsertLoop fuel m g.1 gn.parent)
      else if d₂ ≠ d₁ then (do
        let m ← m.rbRotate p.1 d₂
        let m ← m.rbRotate g.1 d₂.opp
        let m ← m.setRed g.1 true
        m.setRed x.1 false)
      else (do
        let m ← m.rbRotate g.1 d₂.opp
        let m ← m.setRed g.1 true
        m.setRed p.1 false) := by
  have hp := Holds.node_eq (c := ⟨d₂, false, g, U⟩ :: c) h
  have hg := Holds.node_eq (c := c) (A := side d₁ true p (side e true x A B) s) h
  have hdirp := dir_mkLinks d₁ true (some g.1) (ptr s) p.2
    (Holds.ptr_ne (c := ⟨d₂, false, g, U⟩ :: c) h (side_ne_nil _ _ _ _ _))
  have hdirg := dir_mkLinks d₂ false (holeParent c) (ptr U) g.2
    (Holds.ptr_ne (c := c) (A := side d₁ true p (side e true x A B) s) h
      (side_ne_nil _ _ _ _ _))
  have hU : m.isRed (ptr U) = some U.isRed := by
    refine Holds.isRed_eq
      (c := ⟨d₂.opp, false, g, side d₁ true p (side e true x A B) s⟩ :: c) ?_
    simpa only [plug, side_opp] using h
  rw [ptr_side] at hp hg hdirp hdirg
  rw [show holeParent (⟨d₂, false, g, U⟩ :: c) = some g.1 from rfl] at hp
  have hred : m.isRed (some p.1) = some true := by simp [RbMem.isRed, hp]
  simp only [RbMem.fixInsertLoop, hred, hp, hg, hU, hdirp, hdirg, parent_mkLinks,
    child_opp_mkLinks, bind, Option.bind_some, if_true]

/-- **The loop of `fix_insert`.** From a tree that is red-black but for one red node `x`,
the loop ends within as many steps as `x` has ancestors and repairs the tree. -/
theorem fixInsertLoop_spec {fuel : ℕ} {m : RbMem} {c : Ctx RbElem} {e : Dir} {x : RbElem}
    {A B : ColTree RbElem} {n : ℕ} (h : Holds m (plug c (side e true x A B)))
    (hf : Fits c n) (ht : Balanced (side e true x A B) n) (hfuel : c.length < fuel) :
    ∃ m' T, RbMem.fixInsertLoop fuel m x.1 (holeParent c) = some m' ∧
      T.toList = (plug c (side e true x A B)).toList ∧ Repaired m m' c x A B T := by
  induction fuel generalizing m c e x A B n with
  | zero => omega
  | succ fuel ih =>
      have hload : m.load (holePlace c) = some (some x.1) := by
        simpa using (holds_plug.mp h).1.load
      have hdone : headRed c = false →
          RbMem.fixInsertLoop (fuel + 1) m x.1 (holeParent c) = some m := by
        intro hr
        simp [RbMem.fixInsertLoop, h.isRed_holeParent, hr]
      rcases c with - | ⟨⟨d₁, red₁, p, s⟩, c⟩
      · refine ⟨m, _, hdone rfl, rfl, h, ⟨isRed_blacken _, n + 1, ?_⟩, h.kept.near, h.kept.far,
          iff_of_true hload fun hM => Bool.noConfusion hM.headRed, SameDom.refl m⟩
        exact ht.blacken_of_isRed (isRed_side ..)
      cases red₁ with
      | false =>
          have hrb := isRedBlack_plug hf ht fun _ => ⟨rfl, by simp⟩
          exact ⟨m, _, hdone rfl, rfl, h, by rwa [blacken_eq_self hrb.1], h.kept.near,
            h.kept.far, iff_of_true hload fun hM => Bool.noConfusion hM.headRed, SameDom.refl m⟩
      | true =>
          obtain ⟨-, -, hhead, hne, -⟩ := fits_cons_red.mp hf
          rcases c with - | ⟨⟨d₂, red₂, g, U⟩, c⟩
          · exact absurd rfl hne
          obtain rfl : red₂ = false := hhead
          rw [show holeParent (⟨d₁, true, p, s⟩ :: ⟨d₂, false, g, U⟩ :: c) = some p.1 from rfl,
            h.fixInsertLoop_red]
          cases hUr : U.isRed with
          | true =>
              obtain ⟨redU, u, U₁, U₂, rfl⟩ := exists_side (ne_nil_of_isRed hUr) .left
              obtain rfl : redU = true := by simpa using hUr
              obtain ⟨m₁, m₂, m₃, e₁, e₂, e₃, h₃, hs₃⟩ := h.recolour
              obtain ⟨hbal, hfit⟩ := balanced_recolour hf ht hUr
              rw [blacken_side] at hbal
              obtain ⟨m', T, e', hT, hr⟩ := ih h₃ hfit hbal
                (by simp only [List.length_cons] at hfuel; omega)
              refine ⟨m', T, ?_, ?_, hr.holds, hr.redBlack, hr.keptA.near.near,
                hr.keptA.near.far, iff_of_true ?_ ?_, hs₃.trans hr.same⟩
              · simp only [if_true, ptr_side, bind, Option.bind_some, e₁, e₂, e₃,
                  Holds.node_eq (c := c) h₃, parent_mkLinks, e']
              · rw [hT]
                simp only [plug, toList_plug]
                congr 2
                exact toList_side_congr _ _ _ _ (toList_side_congr _ _ _ _ rfl rfl)
                  (toList_side_congr _ _ _ _ rfl rfl)
              · obtain ⟨par, hpar⟩ := hr.keptA
                simp [RbMem.load, holePlace, (repr_side.mp hpar).1]
              · exact fun hM => Bool.noConfusion hM.2.1
          | false =>
              simp only [Bool.false_eq_true, if_false]
              rcases Dir.eq_or_eq_opp d₂ d₁ with rfl | rfl
              · obtain ⟨m', e', h', hsame⟩ := h.straight
                obtain ⟨hbal, hfit⟩ := balanced_straight (d := d₁) hf ht hUr
                have hrb := isRedBlack_plug hfit hbal fun hr => by simp at hr
                refine ⟨m', _, by rw [if_neg (by simp)]; exact e', ?_, h', ?_,
                  h'.kept.near.near, h'.kept.near.far, iff_of_true ?_ ?_, hsame⟩
                · simp only [plug, toList_plug]
                  congr 2
                  exact (toList_rotate d₁ _ _ _ _ _ _ _ _ _).symm
                · rwa [blacken_eq_self hrb.1]
                · simp [RbMem.load, holePlace, h'.node_eq]
                · exact fun hM => hM.2.2 rfl
              · rw [if_pos (by simp)]
                exact Repaired.of_mixed h hf ht hUr

/-! ### The whole insertion -/

/-- Recolouring does not touch the slots. -/
theorem load_setRed {m m' : RbMem} {a : Addr} {red : Bool} (h : m.setRed a red = some m')
    (place : RbPlace) : m'.load place = m.load place := by
  simp only [RbMem.setRed, RbMem.modify, Option.map_eq_some_iff] at h
  obtain ⟨n, hn, rfl⟩ := h
  cases place with
  | root => rfl
  | child b d =>
      by_cases hb : b = a
      · subst hb
        cases d <;> simp [RbMem.load, hn, RbLinks.child]
      · simp [RbMem.load, Function.update_of_ne hb]

/-- Colouring the root black. -/
theorem Holds.blackenRoot {m : RbMem} {T : ColTree RbElem} (h : Holds m T) (hT : T ≠ .nil) :
    ∃ a m', m.root = some a ∧ m.setRed a false = some m' ∧ Holds m' T.blacken ∧
      SameDom m m' := by
  obtain ⟨red, x, l, r, rfl⟩ := exists_side hT .left
  obtain ⟨m', e', h', hch⟩ := Holds.setRed (c := []) h false
  exact ⟨x.1, m', h.root, e', h', hch.toSameDom⟩

/-- Linking a new node into the hole of a context: `*place = node; set_parent(node, parent);`. -/
theorem Holds.link {m : RbMem} {c : Ctx RbElem} {a : Addr} {par : Ptr} {fd : ℤ}
    (h : Holds m (plug c .nil)) (ha : m.node a = some ⟨true, par, none, none, fd⟩)
    (hfresh : a ∉ ctxAddrs c) :
    ∃ m₁ m₂, m.store (some a) (holePlace c) = some m₁ ∧
      m₁.setParent a (holeParent c) = some m₂ ∧
      Holds m₂ (plug c (side .left true (a, fd) .nil .nil)) ∧ SameDom m m₂ := by
  obtain ⟨hc, -, hs⟩ := holds_plug.mp h
  obtain ⟨m₁, e₁, hc₁, ch₁⟩ := hc.store (by simpa [Sep, addrs, toList] using hs) (some a)
  obtain ⟨m₂, e₂, ha₂, r₂, ch₂⟩ :=
    modify_spec (ch₁.keep hfresh ha) fun n => { n with parent := holeParent c }
  refine ⟨m₁, m₂, e₁, e₂, holds_plug.mpr ⟨?_, ?_, ?_⟩, ch₁.toSameDom.trans ch₂.toSameDom⟩
  · refine hc₁.frame r₂ fun b hb => ch₂.node b ?_
    rw [List.mem_singleton]
    rintro rfl
    exact hfresh hb
  · exact repr_side.mpr ⟨ha₂, trivial, trivial⟩
  · rw [sep_side]
    simpa [addrs, toList, Sep, hfresh] using hs

/-- **Insertion.** `rb_insert` of a fresh red childless node at the hole of a red-black
tree yields a red-black tree in which the new node stands at the place of the hole and
all others keep theirs in the order. -/
theorem rbInsert_spec {m : RbMem} {c : Ctx RbElem} {a : Addr} {par : Ptr} {fd : ℤ}
    (h : Holds m (plug c .nil)) (hrb : IsRedBlack (plug c .nil))
    (ha : m.node a = some ⟨true, par, none, none, fd⟩) (hfresh : a ∉ ctxAddrs c)
    (htop : c.length ≤ m.top) :
    ∃ m' T, m.rbInsert a (holePlace c) (holeParent c) = some m' ∧ Holds m' T ∧
      IsRedBlack T ∧ T.toList = before c ++ (a, fd) :: after c ∧
      (m'.load (holePlace c) = some (some a) ↔ ¬ Mixed c) ∧ SameDom m m' := by
  obtain ⟨m₁, m₂, e₁, e₂, h₂, hs₂⟩ := h.link ha hfresh
  obtain ⟨n, hfit, hnil, -⟩ := fits_of_isRedBlack hrb
  have hbal : Balanced (side .left true (a, fd) .nil .nil) n := by
    simpa [ColTree.isRed] using hnil
  -- whether or not the loop is entered, it leaves a repaired tree
  obtain ⟨m₃, T, e₃, hT, hr⟩ := fixInsertLoop_spec h₂ hfit hbal
    (show c.length < m₂.top + 1 by rw [hs₂.top]; omega)
  have hne : T ≠ .nil := by
    rintro rfl
    rw [toList_plug] at hT
    simp [toList, side] at hT
  obtain ⟨b, m₄, hroot, e₄, h₄, hs₄⟩ := hr.holds.blackenRoot hne
  refine ⟨m₄, T.blacken, ?_, h₄, hr.redBlack, ?_, ?_, (hs₂.trans hr.same).trans hs₄⟩
  · simp only [RbMem.rbInsert, e₁, e₂, h₂.isRed_holeParent, bind, Option.bind_some]
    cases hhead : headRed c with
    | true => simp only [if_true, RbMem.fixInsert, e₃, Option.bind_some, hroot, e₄]
    | false =>
        simp only [RbMem.fixInsertLoop, h₂.isRed_holeParent, hhead, bind, Option.bind_some,
          Bool.false_eq_true, if_false, Option.some.injEq] at e₃
        subst e₃
        simp only [Bool.false_eq_true, if_false, hroot, Option.bind_some, e₄]
  · rw [toList_blacken, hT, toList_plug]
    simp [side, toList]
  · rw [load_setRed e₄, hr.slot]

end IoEngine
