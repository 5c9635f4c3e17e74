import IoEngine.RbPacked
import IoEngine.ServiceRuns

/-!
# How Long an Update Takes

The functions of `rbtree.c` as programs have steps: each reads or writes a node, or a slot. A round
of a loop has a bounded number of them, and a loop makes at most a few rounds more than the tree is
high, whatever fuel the model gives it. So searches, insertions and extractions take logarithmic
time, on packed words as on fields.

## Main results

* `rbProbe_steps`, `rbInsert_steps`, `rbExtract_steps`: **the steps of a call** are linear in the
  height of a valid tree.
* `service_tree_steps`: so they are **logarithmic in the number of `pollfd`s**, in every state of a
  service.
-/

open RedBlack RedBlack.ColTree RedBlack.Ctx Programs

namespace IoEngine

open FdTree Svc LawfulFdTree

/-! ### The steps of a round -/

/-- One command sets a parent. -/
theorem atMost_setParentIf (p parent : Ptr) : AtMost 1 (RbProg.setParentIf p parent) := by
  cases p with
  | none => exact .ret 1 _
  | some a => exact .perform

/-- One command finds the reference from the parent. -/
theorem atMost_linkTo (parent : Ptr) (a : Addr) : AtMost 1 (RbProg.linkTo parent a) := by
  cases parent with
  | none => exact .ret 1 _
  | some p => exact .perform_bind fun n => .ret 0 _

/-- **A rotation** takes at most 9 commands. -/
theorem atMost_rbRotate (a : Addr) (dir : Dir) : AtMost 9 (RbProg.rbRotate a dir) :=
  .perform_bind fun n => .bind (atMost_linkTo n.parent a) fun _ => .ofOption_bind fun _ =>
    .perform_bind fun _ => .perform_bind fun _ => .perform_bind fun _ => .perform_bind fun _ =>
    .bind (atMost_setParentIf _ _) fun _ => .perform_bind fun _ => .perform

/-- The descent takes 2 commands a level. -/
theorem atMost_rbProbeLoop (fd : ℤ) (fuel : ℕ) (place : RbPlace) (parent : Ptr) :
    AtMost (2 * fuel) (RbProg.rbProbeLoop fd fuel place parent) := by
  induction fuel generalizing place parent with
  | zero => exact .fail 0
  | succ fuel ih =>
      refine .perform_bind fun p => ?_
      cases p with
      | none => exact .ret _ _
      | some a => exact .perform_bind fun n => .ite (.ret _ _) (ih _ _)

/-- The walk to the rightmost node takes 2 commands a level. -/
theorem atMost_predecessorLoop (fuel : ℕ) (pred : RbPlace) :
    AtMost (2 * fuel) (RbProg.predecessorLoop fuel pred) := by
  induction fuel generalizing pred with
  | zero => exact .fail 0
  | succ fuel ih =>
      exact .perform_bind fun p => .ofOption_bind fun a => .perform_bind fun n =>
        .ite (ih _) (.ret _ _)

/-- The repair after an insertion takes 8 commands a level, and ends with rotations. -/
theorem atMost_fixInsertLoop (fuel : ℕ) (node : Addr) (parent : Ptr) :
    AtMost (8 * fuel + 16) (RbProg.fixInsertLoop fuel node parent) := by
  induction fuel generalizing node parent with
  | zero => exact .fail _
  | succ fuel ih =>
      refine AtMost.mono (m := 8 * fuel + 24) ?_ (by omega)
      refine .perform_bind fun red => .ite ?_ (.ret _ _)
      refine .ofOption_bind fun p => .perform_bind fun pn => ?_
      cases pn.parent with
      | none => exact .ret _ _
      | some g =>
          refine .perform_bind fun gn => .perform_bind fun red => .ite ?_ (.ite ?_ ?_)
          · exact .ofOption_bind fun u => .perform_bind fun _ => .perform_bind fun _ =>
              .perform_bind fun _ => .perform_bind fun gn => ih g gn.parent
          · exact .bind (a := 9) (atMost_rbRotate _ _) fun _ =>
              .bind (a := 9) (atMost_rbRotate _ _) fun _ => .perform_bind fun _ => .perform
          · exact .bind (a := 9) (atMost_rbRotate _ _) fun _ => .perform_bind fun _ => .perform

/-- The rotation of the near nephew takes at most 13 commands. -/
theorem atMost_nearToFar (p s : Addr) (dirToDb : Dir) :
    AtMost 13 (RbProg.nearToFar p s dirToDb) :=
  .perform_bind fun _ => .ofOption_bind fun _ => .perform_bind fun _ => .perform_bind fun _ =>
    .bind (a := 9) (atMost_rbRotate _ _) fun _ => .perform_bind fun _ => .ofOption

/-- The last rotation of a removal takes at most 12 commands. -/
theorem atMost_closeDelete (p s : Addr) (dirToDb : Dir) :
    AtMost 12 (RbProg.closeDelete p s dirToDb) :=
  .perform_bind fun _ => .ofOption_bind fun _ => .perform_bind fun _ => .perform_bind fun _ =>
    atMost_rbRotate _ _

/-- One command blackens a node. -/
theorem atMost_blackenDb (db : Ptr) : AtMost 1 (RbProg.blackenDb db) := by
  cases db with
  | none => exact .ret 1 _
  | some a => exact .perform

/-- The repair after a removal takes 14 commands a level, and ends with rotations. -/
theorem atMost_fixDeleteLoop (fuel : ℕ) (db parent : Ptr) :
    AtMost (14 * fuel + 17) (RbProg.fixDeleteLoop fuel db parent) := by
  induction fuel generalizing db parent with
  | zero => exact .fail _
  | succ fuel ih =>
      have hblacken := (atMost_blackenDb db).mono (show 1 ≤ 14 * fuel + 30 by omega)
      refine AtMost.mono (m := 14 * fuel + 31) ?_ (by omega)
      refine .perform_bind fun red => .ite hblacken ?_
      cases parent with
      | none => exact hblacken
      | some p =>
          refine .perform_bind fun pn => .perform_bind fun red => .ite ?_ ?_
          · exact .ofOption_bind fun s => .perform_bind fun _ => .perform_bind fun _ =>
              .bind (a := 9) (atMost_rbRotate _ _) fun _ => (ih db (some p)).mono (by omega)
          refine .ofOption_bind fun s => .perform_bind fun sn => .perform_bind fun red => .ite ?_ ?_
          · exact (atMost_closeDelete p s _).mono (by omega)
          refine .perform_bind fun red => .ite ?_ ?_
          · exact .bind (a := 13) (atMost_nearToFar p s _) fun s =>
              (atMost_closeDelete p s _).mono (by omega)
          · exact .perform_bind fun _ => .perform_bind fun pn =>
              (ih (some p) pn.parent).mono (by omega)

/-- The exchange with a predecessor that is a child takes at most 7 commands. -/
theorem atMost_swapAdjacent (place : RbPlace) (parent : Ptr) (pred curr : Addr) :
    AtMost 7 (RbProg.swapAdjacent place parent pred curr) :=
  .perform_bind fun _ => .perform_bind fun _ => .perform_bind fun _ => .perform_bind fun _ =>
    .perform_bind fun _ => .perform_bind fun _ => atMost_setParentIf _ _

/-- The exchange with a predecessor further below takes at most 11 commands. -/
theorem atMost_swapApart (place : RbPlace) (parent : Ptr) (predLoc : RbPlace)
    (pred curr : Addr) : AtMost 11 (RbProg.swapApart place parent predLoc pred curr) :=
  .perform_bind fun _ => .perform_bind fun _ => .perform_bind fun _ => .perform_bind fun _ =>
    .perform_bind fun _ => .perform_bind fun _ => .perform_bind fun _ => .perform_bind fun _ =>
    .perform_bind fun _ => .bind (atMost_setParentIf _ _) fun _ => .ofOption_bind fun _ => .perform

/-- Handing over the right child takes at most 4 commands. -/
theorem atMost_moveRight (pred curr : Addr) : AtMost 4 (RbProg.moveRight pred curr) :=
  .perform_bind fun _ => .perform_bind fun _ => .perform_bind fun _ => atMost_setParentIf _ _

/-! ### More fuel -/

/-- With more fuel the descent does at least as much. -/
theorem rbProbeLoop_le {k n : ℕ} (hle : k ≤ n) (fd : ℤ) (place : RbPlace) (parent : Ptr) :
    Le (RbProg.rbProbeLoop fd k place parent) (RbProg.rbProbeLoop fd n place parent) := by
  induction k generalizing n place parent with
  | zero => exact .fail _
  | succ k ih =>
      obtain ⟨n, rfl⟩ : ∃ j, n = j + 1 := ⟨n - 1, by omega⟩
      refine .bind_left _ fun p => ?_
      cases p with
      | none => exact .refl _
      | some a =>
          exact .bind_left _ fun nd => .ite (.refl _) (ih (Nat.le_of_succ_le_succ hle) _ _)

/-- With more fuel the walk does at least as much. -/
theorem predecessorLoop_le {k n : ℕ} (hle : k ≤ n) (pred : RbPlace) :
    Le (RbProg.predecessorLoop k pred) (RbProg.predecessorLoop n pred) := by
  induction k generalizing n pred with
  | zero => exact .fail _
  | succ k ih =>
      obtain ⟨n, rfl⟩ : ∃ j, n = j + 1 := ⟨n - 1, by omega⟩
      exact .bind_left _ fun p => .bind_left _ fun a => .bind_left _ fun nd =>
        .ite (ih (Nat.le_of_succ_le_succ hle) _) (.refl _)

/-- With more fuel the repair after an insertion does at least as much. -/
theorem fixInsertLoop_le {k n : ℕ} (hle : k ≤ n) (node : Addr) (parent : Ptr) :
    Le (RbProg.fixInsertLoop k node parent) (RbProg.fixInsertLoop n node parent) := by
  induction k generalizing n node parent with
  | zero => exact .fail _
  | succ k ih =>
      obtain ⟨n, rfl⟩ : ∃ j, n = j + 1 := ⟨n - 1, by omega⟩
      refine .bind_left _ fun red => .ite ?_ (.refl _)
      refine .bind_left _ fun p => .bind_left _ fun pn => ?_
      cases pn.parent with
      | none => exact .refl _
      | some g =>
          refine .bind_left _ fun gn => .bind_left _ fun red => .ite ?_ (.refl _)
          exact .bind_left _ fun u => .bind_left _ fun _ => .bind_left _ fun _ =>
            .bind_left _ fun _ => .bind_left _ fun gn => ih (Nat.le_of_succ_le_succ hle) _ _

/-- With more fuel the repair after a removal does at least as much. -/
theorem fixDeleteLoop_le {k n : ℕ} (hle : k ≤ n) (db parent : Ptr) :
    Le (RbProg.fixDeleteLoop k db parent) (RbProg.fixDeleteLoop n db parent) := by
  induction k generalizing n db parent with
  | zero => exact .fail _
  | succ k ih =>
      obtain ⟨n, rfl⟩ : ∃ j, n = j + 1 := ⟨n - 1, by omega⟩
      have hle := Nat.le_of_succ_le_succ hle
      refine .bind_left _ fun red => .ite (.refl _) ?_
      cases parent with
      | none => exact .refl _
      | some p =>
          refine .bind_left _ fun pn => .bind_left _ fun red => .ite ?_ ?_
          · exact .bind_left _ fun s => .bind_left _ fun _ => .bind_left _ fun _ =>
              .bind_left _ fun _ => ih hle _ _
          · exact .bind_left _ fun s => .bind_left _ fun sn => .bind_left _ fun red =>
              .ite (.refl _) (.bind_left _ fun red => .ite (.refl _)
                (.bind_left _ fun _ => .bind_left _ fun pn => ih hle _ _))

/-! ### The steps of a call -/

section

variable {m : RbMem}

/-- From a position the loop of `rb_probe` makes at most one round more than the subtree is
high. -/
theorem run_rbProbeLoop_isSome {c : Ctx RbElem} {t : ColTree RbElem} (h : Holds m (plug c t))
    (fd : ℤ) (parent : Ptr) :
    ((RbProg.rbProbeLoop fd (t.height + 1) (holePlace c) parent).run splitMem m).isSome := by
  induction t generalizing c parent with
  | nil =>
      have hload := (holds_plug.mp h).1.load
      simp [RbProg.rbProbeLoop, splitMem, hload, ptr]
  | node red l x r ihl ihr =>
      have hload := (holds_plug.mp h).1.load
      have hx := Holds.node_eq (d := .left) h
      have hl := ihl (c := ⟨.left, red, x, r⟩ :: c) h (some x.1)
      have hr := ihr (c := ⟨.right, red, x, l⟩ :: c) h (some x.1)
      obtain ⟨ql, hl⟩ := Option.isSome_iff_exists.mp hl
      obtain ⟨qr, hr⟩ := Option.isSome_iff_exists.mp hr
      simp only [RbProg.rbProbeLoop, run_bind, run_perform, splitMem, hload, ptr_node, hx,
        Option.map_some, Option.bind_some, run_ite]
      split
      next => rfl
      next =>
        split
        next =>
          exact Option.isSome_iff_exists.mpr
            ⟨qr, (rbProbeLoop_le (Nat.succ_le_succ (Nat.le_max_right _ _)) ..).run hr⟩
        next =>
          exact Option.isSome_iff_exists.mpr
            ⟨ql, (rbProbeLoop_le (Nat.succ_le_succ (Nat.le_max_left _ _)) ..).run hl⟩

/-- **`rb_probe`** from a position. -/
theorem rbProbe_steps {c : Ctx RbElem} {t : ColTree RbElem} (h : Holds m (plug c t)) (fd : ℤ)
    (htop : t.height ≤ m.top) :
    (RbProg.rbProbe (holePlace c) fd).steps splitMem m ≤ 2 * t.height + 3 := by
  have hloop := (rbProbeLoop_le (Nat.succ_le_succ htop) fd (holePlace c) none).steps_le
    (run_rbProbeLoop_isSome h fd none) (atMost_rbProbeLoop ..)
  rw [RbProg.rbProbe, steps_bind_of_run (run_perform splitMem .top m), steps_perform, Nat.add_comm]
  exact Nat.succ_le_succ hloop

/-- The walk to the last node of a subtree makes a round a level. -/
theorem run_predecessorLoop_isSome {C : Ctx RbElem} {t : ColTree RbElem} (h : Holds m (plug C t))
    (ht : t ≠ .nil) :
    ((RbProg.predecessorLoop t.height (holePlace C)).run splitMem m).isSome := by
  induction t generalizing C with
  | nil => exact absurd rfl ht
  | node red l x r _ ihr =>
      have hload := (holds_plug.mp h).1.load
      have hx := Holds.node_eq (d := .left) h
      simp only [height, RbProg.predecessorLoop, run_bind, run_perform, run_ofOption, splitMem,
        hload, ptr_node, hx, Option.map_some, Option.bind_some]
      cases r with
      | nil => rfl
      | node red' l' y r' =>
          obtain ⟨q, hq⟩ := Option.isSome_iff_exists.mp
            (ihr (C := ⟨.right, red, x, l⟩ :: C) h (by simp))
          rw [if_pos (by simp [mkLinks, ptr])]
          exact Option.isSome_iff_exists.mpr
            ⟨q, (predecessorLoop_le (Nat.le_max_right _ _) _).run hq⟩

/-- `rb_insert` at the hole of a red-black tree. -/
theorem rbInsert_hole_steps {c : Ctx RbElem} {a : Addr} {par : Ptr} {fd : ℤ}
    (h : Holds m (plug c .nil)) (hrb : IsRedBlack (plug c .nil))
    (ha : m.node a = some ⟨true, par, none, none, fd⟩) (hfresh : a ∉ ctxAddrs c)
    (htop : c.length ≤ m.top) :
    (RbProg.rbInsert a (holePlace c) (holeParent c)).steps splitMem m ≤ 8 * c.length + 30 := by
  obtain ⟨m₁, m₂, e₁, e₂, h₂, hs₂⟩ := h.link ha hfresh
  obtain ⟨n, hfit, hnil, -⟩ := fits_of_isRedBlack hrb
  have hbal : ColTree.Balanced (side .left true (a, fd) .nil .nil) n := by
    simpa [ColTree.isRed] using hnil
  obtain ⟨m₃, T, e₃, -⟩ := fixInsertLoop_spec h₂ hfit hbal (Nat.lt_succ_self _)
  have hrun : ((RbProg.fixInsertLoop (c.length + 1) a (holeParent c)).run splitMem m₂).isSome := by
    rw [run_fixInsertLoop, e₃]
    rfl
  have hloop := (fixInsertLoop_le (Nat.succ_le_succ htop) a (holeParent c)).steps_le hrun
    (atMost_fixInsertLoop ..)
  rw [RbProg.rbInsert, steps_bind_of_run (r := ((), m₁)) (by simp [splitMem, e₁]), steps_perform,
    steps_bind_of_run (r := ((), m₂)) (by simp [splitMem, e₂]), steps_perform,
    steps_bind_of_run (r := (headRed c, m₂)) (by simp [splitMem, h₂.isRed_holeParent]),
    steps_perform]
  have htail : AtMost 2 (do
      let root ← Prog.ofOption (← Prog.perform (.load .root))
      Prog.perform (RbCmd.setRed root false)) :=
    .perform_bind fun _ => .ofOption_bind fun _ => .perform
  have hrest : (do
      let top ← Prog.perform RbCmd.top
      RbProg.fixInsertLoop (top + 1) a (holeParent c)
      let root ← Prog.ofOption (← Prog.perform (.load .root))
      Prog.perform (RbCmd.setRed root false)).steps splitMem m₂ ≤
        1 + (8 * (c.length + 1) + 16 + 2) := by
    refine steps_bind_le (steps_perform ..).le fun r hr => ?_
    obtain rfl : (m₂.top, m₂) = r := Option.some.inj hr
    exact steps_bind_le (by rwa [hs₂.top]) fun r _ => htail.steps_le _
  refine le_trans (b := 1 + (1 + (1 + (1 + (8 * (c.length + 1) + 16 + 2)))))
    (Nat.add_le_add_left (Nat.add_le_add_left (Nat.add_le_add_left ?_ 1) 1) 1) (by omega)
  dsimp only
  split
  · exact hrest
  · exact (htail.steps_le m₂).trans (by omega)

/-- The first writes of `unlink`. -/
theorem Holds.replace {c : Ctx RbElem} {d : Dir} {red : Bool} {x : RbElem} {son : ColTree RbElem}
    (h : Holds m (plug c (side d red x son .nil))) :
    ∃ m₁ m₂, m.store (ptr son) (holePlace c) = some m₁ ∧
      m₁.setParentIf (ptr son) (holeParent c) = some m₂ ∧ Holds m₂ (plug c son) ∧
      SameDom m m₂ := by
  obtain ⟨hc, hrep, hs⟩ := holds_plug.mp h
  obtain ⟨-, hson, -⟩ := repr_side.mp hrep
  have hnd := sep_side.mp hs
  simp only [addrs, ColTree.toList, List.map_nil, List.append_nil, List.cons_append,
    List.nodup_cons] at hnd
  obtain ⟨-, hnd⟩ := hnd
  obtain ⟨hnson, hnc, hdisj⟩ := List.nodup_append'.mp hnd
  obtain ⟨m₁, e₁, hc₁, ch₁⟩ := hc.store hnc (ptr son)
  have hson₁ : ReprTree m₁ (some x.1) son :=
    hson.frame fun a ha => ch₁.node a fun hac => hdisj ha hac
  obtain ⟨m₂, e₂, hson₂, r₂, ch₂⟩ := hson₁.setParentIf hnson (holeParent c)
  have hc₂ : ReprCtx m₂ (ptr son) c :=
    hc₁.frame r₂ fun a ha => ch₂.node a fun has => hdisj has ha
  exact ⟨m₁, m₂, e₁, e₂, holds_plug.mpr ⟨hc₂, hson₂, hnd⟩, ch₁.toSameDom.trans ch₂.toSameDom⟩

/-- A red node is unlinked without a loop. -/
theorem unlink_red_steps {a : Addr} {n : RbLinks} (ha : m.node a = some n) (hred : n.red = true)
    (place : RbPlace) (parent : Ptr) :
    (RbProg.unlink place parent a).steps splitMem m ≤ 3 := by
  rw [RbProg.unlink, steps_bind_of_run (r := (n, m)) (by simp [splitMem, ha]), steps_perform]
  refine Nat.add_le_add_left (m := 2) ?_ 1
  dsimp only
  rw [if_pos hred]
  exact AtMost.steps_le (.perform_bind fun _ => .bind (atMost_setParentIf _ _) fun _ => .ret 0 _) m

/-- Without a parent the repair has nowhere to climb to. -/
theorem atMost_unlink_none (place : RbPlace) (a : Addr) :
    AtMost 6 (RbProg.unlink place none a) := by
  refine .perform_bind fun n => .perform_bind fun _ =>
    .bind (a := 1) (atMost_setParentIf _ _) fun _ => .ite (.ret _ _) ?_
  refine .perform_bind fun top => ?_
  have hblacken := atMost_blackenDb (if n.left.isSome then n.left else n.right)
  exact .perform_bind fun red => .ite hblacken hblacken

/-- **The second half of `rb_extract`**, at a node one of whose subtrees is empty. -/
theorem unlink_steps {c : Ctx RbElem} {d : Dir} {red : Bool} {x : RbElem}
    {son : ColTree RbElem} {n : ℕ} (h : Holds m (plug c (side d red x son .nil)))
    (hf : Fits c n) (ht : ColTree.Balanced (side d red x son .nil) n) (htop : c.length < m.top) :
    (RbProg.unlink (holePlace c) (holeParent c) x.1).steps splitMem m ≤ 14 * c.length + 63 := by
  have hx := h.node_eq
  cases red with
  | true => exact (unlink_red_steps hx (red_mkLinks ..) _ _).trans (by omega)
  | false =>
      obtain ⟨k, rfl⟩ := exists_of_balanced_black ht (side_ne_nil _ _ _ _ _) (isRed_side ..)
      obtain ⟨hbal, -⟩ := (balanced_side_black ..).mp ht
      obtain ⟨m₁, m₂, e₁, e₂, h₂, hs₂⟩ := h.replace
      obtain ⟨m₃, T, e₃, -⟩ := fixDeleteLoop_spec (c.length + 3) h₂ hf hbal le_rfl
      have hrun : ((RbProg.fixDeleteLoop (c.length + 3) (ptr son) (holeParent c)).run splitMem
          m₂).isSome := by
        rw [run_fixDeleteLoop, e₃]
        rfl
      have hloop := (fixDeleteLoop_le (show c.length + 3 ≤ 2 * m₂.top + 2 by rw [hs₂.top]; omega)
        (ptr son) (holeParent c)).steps_le hrun (atMost_fixDeleteLoop ..)
      obtain ⟨nd, hnode, hred, hson⟩ : ∃ nd, m.node x.1 = some nd ∧ nd.red = false ∧
          (if nd.left.isSome then nd.left else nd.right) = ptr son :=
        ⟨_, hx, red_mkLinks .., by cases d <;> cases son <;> simp [mkLinks, ptr]⟩
      rw [RbProg.unlink, steps_bind_of_run (r := (nd, m)) (by simp [splitMem, hnode]),
        steps_perform]
      dsimp only
      rw [hson, steps_bind_of_run (r := ((), m₁)) (by simp [splitMem, e₁]), steps_perform,
        steps_bind_of_run (r := ((), m₂)) (by rw [run_setParentIf, e₂]; rfl)]
      have hparent : (RbProg.setParentIf (ptr son) (holeParent c)).steps splitMem m₁ ≤ 1 :=
        (atMost_setParentIf ..).steps_le m₁
      dsimp only
      rw [if_neg (by simp [hred]), steps_bind_of_run (r := (m₂.top, m₂)) (by simp [splitMem]),
        steps_perform]
      dsimp only
      omega

/-- Two trees with a path of right links each, to nodes without a right child: if the trees are
equal, so are the nodes. -/
theorem elem_eq_of_rightPath {p p' : Ctx RbElem} {red red' : Bool} {L L' : ColTree RbElem}
    {y y' : RbElem} (hp : RightPath p) (hp' : RightPath p')
    (h : plug p (.node red L y .nil) = plug p' (.node red' L' y' .nil)) : y = y' := by
  have hlast := congrArg (fun t => t.toList.getLast?) h
  simpa [toList_plug, toList, hp.after_eq, hp'.after_eq] using hlast

/-- Which node stands at the end of a path does not matter to the height. -/
theorem height_plug_congr {t t' : ColTree RbElem} (h : t.height = t'.height) (c : Ctx RbElem) :
    (plug c t).height = (plug c t').height := by
  induction c generalizing t t' with
  | nil => exact h
  | cons f c ih =>
      refine ih ?_
      cases f.dir <;> simp only [side, height, h]

/-- **The first half of `rb_extract`**, at a node with two children. -/
theorem swapWithPredecessor_steps {c : Ctx RbElem} {red : Bool} {a : Addr} {fd : ℤ}
    {l r : ColTree RbElem} (h : Holds m (plug c (.node red l (a, fd) r))) (hl : l ≠ .nil)
    (hlt : ∀ x ∈ l.toList, x.2 < fd)
    (htop : (plug c (.node red l (a, fd) r)).toList.length ≤ m.top) :
    (RbProg.swapWithPredecessor (holePlace c) (holeParent c) a fd).steps splitMem m ≤
      4 * l.height + 22 := by
  have hctx := length_ctx_le (⟨.left, red, (a, fd), r⟩ :: c) l
  rw [show plug (⟨.left, red, (a, fd), r⟩ :: c) l = plug c (.node red l (a, fd) r) from rfl,
    List.length_cons] at hctx
  have hheight := height_le_length l
  obtain ⟨p', redp', L', y', heq, hpath', hpred⟩ := predecessorLoop_spec
    (m.top + 1) (C := ⟨.left, red, (a, fd), r⟩ :: c) h hl (by omega)
  obtain ⟨m', p, redp, L, y, par, hrun, -, rfl, hpath, h', hs⟩ :=
    swapWithPredecessor_spec h hl hlt htop
  obtain rfl := elem_eq_of_rightPath hpath hpath' heq
  have hload : m.load (holePlace (p' ++ ⟨.left, red, (a, fd), r⟩ :: c)) = some (some y.1) := by
    refine ReprCtx.load (holds_plug (t := .node redp' L' y .nil).mp ?_).1
    rw [plug_append, ← heq]
    exact h
  -- the run of the model gives the memory at every step
  rw [holePlace_cons] at hpred
  simp only [RbMem.swapWithPredecessor, RbMem.predecessor, hpred, hload, Option.bind_eq_bind,
    Option.bind_some, Option.bind_eq_some_iff] at hrun
  obtain ⟨m₁, e₁, cn, e₂, m₂, e₃, m₃, e₄, q, e₅, hq⟩ := hrun
  obtain ⟨rfl, -⟩ := Prod.mk.inj (Option.some.inj hq)
  have hprobe : (RbProg.rbProbe (.child y.1 .left) fd).steps splitMem m₃ ≤
      2 * (plug p (.node redp L y .nil)).height + 3 := by
    have hsame : (plug p (.node redp L y .nil)).height =
        (plug p (.node redp L (a, fd) .nil)).height :=
      height_plug_congr (show (ColTree.node redp L y .nil).height =
        (ColTree.node redp L (a, fd) .nil).height from rfl) p
    rw [plug_append] at h'
    rw [hsame]
    exact rbProbe_steps (c := ⟨.left, red, y, r⟩ :: c) h' fd (by rw [hs.top]; omega)
  have hmove := (atMost_moveRight y.1 a).steps_le (H := splitMem) m₂
  have hloop : (RbProg.predecessorLoop (m.top + 1) (.child a .left)).steps splitMem m ≤
      2 * (plug p (.node redp L y .nil)).height :=
    (predecessorLoop_le (by omega) _).steps_le
      (run_predecessorLoop_isSome (C := ⟨.left, red, (a, fd), r⟩ :: c) h hl)
      (atMost_predecessorLoop ..)
  have hpredSteps : (RbProg.predecessor a).steps splitMem m ≤
      1 + 2 * (plug p (.node redp L y .nil)).height := by
    rw [RbProg.predecessor, steps_bind_of_run (r := (m.top, m)) (by simp [splitMem]),
      steps_perform]
    exact Nat.add_le_add_left hloop 1
  rw [RbProg.swapWithPredecessor, steps_bind_of_run
    (r := (holePlace (p' ++ ⟨.left, red, (a, fd), r⟩ :: c), m)) (by
      rw [run_predecessor, RbMem.predecessor, hpred]
      rfl)]
  dsimp only
  rw [steps_bind_of_run (r := (some y.1, m)) (by simp [splitMem, hload]), steps_perform,
    steps_bind_of_run (r := (y.1, m)) (by simp), steps_ofOption,
    steps_bind_of_run (r := ((), m₁)) (by simp [splitMem, e₁]), steps_perform,
    steps_bind_of_run (r := (cn, m₁)) (by simp [splitMem, e₂]), steps_perform]
  dsimp only
  split_ifs at e₃ ⊢
  · rw [steps_bind_of_run (r := ((), m₂)) (by rw [run_swapAdjacent, e₃]; rfl),
      steps_bind_of_run (r := ((), m₃)) (by rw [run_moveRight, e₄]; rfl)]
    have hswap := (atMost_swapAdjacent (holePlace c) (holeParent c) y.1 a).steps_le
      (H := splitMem) m₁
    dsimp only
    omega
  · rw [steps_bind_of_run (r := ((), m₂)) (by rw [run_swapApart, e₃]; rfl),
      steps_bind_of_run (r := ((), m₃)) (by rw [run_moveRight, e₄]; rfl)]
    have hswap := (atMost_swapApart (holePlace c) (holeParent c)
      (holePlace (p' ++ ⟨.left, red, (a, fd), r⟩ :: c)) y.1 a).steps_le (H := splitMem) m₁
    dsimp only
    omega

/-- The second half at a node with at most one child. -/
theorem unlink_one_steps {c : Ctx RbElem} {red : Bool} {a : Addr} {fd : ℤ} {l r : ColTree RbElem}
    (h : ValidTree m (plug c (.node red l (a, fd) r))) (hone : ¬(l ≠ .nil ∧ r ≠ .nil)) :
    (RbProg.unlink (holePlace c) (holeParent c) a).steps splitMem m ≤ 14 * c.length + 63 := by
  have hlen := h.length_le
  have hctx := length_ctx_le c (.node red l (a, fd) r)
  simp only [toList, List.length_append, List.length_cons] at hctx
  obtain ⟨n, hfit, hbal, -⟩ := fits_of_isRedBlack h.redBlack
  by_cases hr : r = .nil
  · subst hr
    exact unlink_steps (d := .left) h.holds hfit hbal (by omega)
  · obtain rfl : l = .nil := by_contra fun hl => hone ⟨hl, hr⟩
    exact unlink_steps (d := .right) h.holds hfit hbal (by omega)

/-- **`rb_extract`** on a valid tree, also where it goes wrong. -/
theorem rbExtract_steps {T : ColTree RbElem} {fd : ℤ} {a : Addr} {q : RbPlace × Ptr}
    (h : ValidTree m T) (hp : m.rbProbe .root fd = some q) (ha : m.lookup fd = some a) :
    (RbProg.rbExtract q.1 q.2).steps splitMem m ≤ 18 * T.height + 87 := by
  obtain ⟨c, red, l, r, rfl, hp', -⟩ := h.position ha
  obtain rfl : q = (holePlace c, holeParent c) := Option.some.inj (hp.symm.trans hp')
  have hload := (holds_plug.mp h.holds).1.load
  have hx := Holds.node_eq (c := c) (d := .left) h.holds
  have hheight := height_plug_le c (.node red l (a, fd) r)
  simp only [height] at hheight
  rw [RbProg.rbExtract, steps_bind_of_run (r := (some a, m)) (by simp [splitMem, hload, ptr]),
    steps_perform, steps_bind_of_run (r := (a, m)) (by simp), steps_ofOption,
    steps_bind_of_run (r := (_, m)) (by simp only [run_perform, splitMem, hx]; rfl), steps_perform]
  dsimp only
  have hcond : ((mkLinks .left red (holeParent c) (ptr l) (ptr r) fd).left.isSome = true ∧
      (mkLinks .left red (holeParent c) (ptr l) (ptr r) fd).right.isSome = true) ↔
        l ≠ .nil ∧ r ≠ .nil := by
    cases l <;> cases r <;> simp [mkLinks, ptr]
  by_cases htwo : l ≠ .nil ∧ r ≠ .nil
  · rw [if_pos (hcond.mpr htwo), fd_mkLinks]
    have hswap := swapWithPredecessor_steps h.holds htwo.1 h.left_lt h.length_le
    obtain ⟨m₁, p, redp, L, y, par, e₁, hpar, rfl, hpath, h₁, hs₁⟩ :=
      swapWithPredecessor_spec h.holds htwo.1 h.left_lt h.length_le
    rw [steps_bind_of_run (r := ((holePlace (p ++ ⟨.left, red, y, r⟩ :: c), par), m₁)) (by
      rw [run_swapWithPredecessor, e₁]
      rfl)]
    dsimp only
    have hunlink : (RbProg.unlink (holePlace (p ++ ⟨.left, red, y, r⟩ :: c)) par a).steps splitMem
        m₁ ≤ 14 * (p.length + (c.length + 1)) + 63 := by
      by_cases hpn : p = []
      · -- the parent that `rb_probe` gives is `NULL`
        rw [hpar, if_pos hpn]
        exact ((atMost_unlink_none ..).steps_le m₁).trans (by omega)
      · obtain ⟨k, hfit, hbal, -⟩ := fits_of_isRedBlack
          (c := p ++ ⟨.left, red, (a, fd), r⟩ :: c) (t := .node redp L y .nil)
          (by rw [plug_append]; exact h.redBlack)
        have hlen := h.length_le
        have hctx := length_ctx_le c (.node red (plug p (.node redp L y .nil)) (a, fd) r)
        have hplen := length_ctx_le p (.node redp L y .nil)
        simp only [toList, List.length_append, List.length_cons] at hctx hplen
        rw [hpar, if_neg hpn]
        have hsteps := unlink_steps (d := .left) h₁ (fits_elem y hfit) (balanced_elem (a, fd) hbal)
          (by simp only [List.length_append, List.length_cons, hs₁.top]; omega)
        rwa [List.length_append, List.length_cons] at hsteps
    have hp := height_plug_le p (.node redp L y .nil)
    simp only [height] at hp
    have hend := steps_bind_le (f := fun _ => (pure a : RbProg Addr)) hunlink
      fun r _ => (le_rfl : 0 ≤ 0)
    omega
  · rw [if_neg (hcond.not.mpr htwo), steps_bind_of_run (run_pure splitMem _ m), steps_pure]
    have hend := steps_bind_le (f := fun _ => (pure a : RbProg Addr)) (unlink_one_steps h htwo)
      fun r _ => (le_rfl : 0 ≤ 0)
    dsimp only
    omega

/-- **`rb_insert`** of a fresh node on a valid tree. -/
theorem rbInsert_steps {T : ColTree RbElem} {fd : ℤ} {a : Addr} {q : RbPlace × Ptr}
    (h : ValidTree m T) (hp : m.rbProbe .root fd = some q) (habs : m.lookup fd = none)
    (hfresh : m.node a = none) :
    (RbProg.rbInsert a q.1 q.2).steps splitMem (m.makeRbnode a fd) ≤ 8 * T.height + 30 := by
  obtain ⟨c, t, rfl, hp', -, ht⟩ := h.probe fd
  obtain rfl : q = (holePlace c, holeParent c) := Option.some.inj (hp.symm.trans hp')
  have hload := (holds_plug.mp h.holds).1.load
  have hlook : m.lookup fd = ptr t := by simp [RbMem.lookup, hp, hload]
  obtain rfl : t = .nil := by
    rcases ht with rfl | ⟨red, b, l, r, rfl⟩
    · rfl
    · rw [habs] at hlook
      simp [ptr] at hlook
  have hdead : a ∉ addrs (plug c .nil) := fun ha => by
    have := (h.live a).mpr ha
    simp [hfresh] at this
  have hctx : a ∉ ctxAddrs c := fun hac => hdead (by
    rw [addrs, ((toList_plug_perm c .nil).map Prod.fst).mem_iff, List.map_append]
    exact List.mem_append_right _ hac)
  have htop : c.length ≤ (m.makeRbnode a fd).top := by
    have h₁ := length_ctx_le c .nil
    have h₂ := h.length_le
    have h₃ : m.top ≤ (m.makeRbnode a fd).top := le_max_left _ _
    omega
  have hheight := height_plug_le c .nil
  have hsteps := rbInsert_hole_steps (h.holds.makeRbnode hdead fd) h.redBlack
    (show (m.makeRbnode a fd).node a = some ⟨true, none, none, none, fd⟩ from
      Function.update_self ..) hctx htop
  dsimp only
  omega

end

/-! ### The tree of a service -/

section

variable {beh : Behaviour RbMem} {alloc : Alloc} {clock : ℤ} {ints : Addr → Int32}
  {errs : Addr → IoErrcode} {V : List ℤ} {s : Svc RbMem}

/-- There is a `pollfd` for every node of the tree. -/
theorem Inv.length_tree_le (h : Inv V s) {T : ColTree RbElem} (hT : ValidTree s.asyncHandlers T) :
    T.toList.length ≤ s.pollfds.data.length := by
  have hnodup : (T.toList.map Prod.snd).Nodup :=
    (List.pairwise_map.mpr hT.ordered).imp fun hlt => Int.ne_of_lt hlt
  have hsub : T.toList.map Prod.snd ⊆ s.pollfds.data.map (·.fd) := by
    intro fd hfd
    obtain ⟨⟨a, fd⟩, hmem, rfl⟩ := List.mem_map.mp hfd
    have ha : lookup s.asyncHandlers fd = some a := hT.lookup_iff.mpr hmem
    obtain ⟨n, hn⟩ := Option.isSome_iff_exists.mp ((h.dom a).mpr ⟨fd, ha⟩)
    obtain ⟨e, he, rfl, -⟩ := h.entry fd a n ha hn
    exact List.mem_map.mpr ⟨e, List.mem_of_getElem? he, rfl⟩
  simpa using (List.subperm_of_subset hnodup hsub).length_le

/-- **Every search, insertion and extraction of a service takes logarithmic time** in the number
of `pollfd`s, in every state of a life whose steps all meet their conditions, counted in what
`rbtree.c` reads and writes of nodes with packed words. -/
theorem service_tree_steps (h : SoundService beh (iosvcCreate alloc clock ints errs) s)
    (L : NodeLayout) (fd : ℤ) :
    ∃ q, s.asyncHandlers.rbProbe .root fd = some q ∧
      (RbProg.rbProbe .root fd).steps (packedMem L) (s.asyncHandlers.pack L) ≤
        4 * Nat.log 2 (s.pollfds.data.length + 1) + 3 ∧
      (∀ a, lookup s.asyncHandlers fd = none → s.asyncHandlers.node a = none →
        (RbProg.rbInsert a q.1 q.2).steps (packedMem L)
            ((s.asyncHandlers.makeRbnode a fd).pack L) ≤
          16 * Nat.log 2 (s.pollfds.data.length + 1) + 30) ∧
      (∀ a, lookup s.asyncHandlers fd = some a →
        (RbProg.rbExtract q.1 q.2).steps (packedMem L) (s.asyncHandlers.pack L) ≤
          36 * Nat.log 2 (s.pollfds.data.length + 1) + 87) := by
  have hinv := (serviceInv_of_steps h).loop.inv
  obtain ⟨T, hT⟩ := hinv.tree
  obtain ⟨c, t, -, hq, -⟩ := hT.probe fd
  have hheight := hT.redBlack.height_le
  have hlog := Nat.log_mono_right (b := 2) (Nat.succ_le_succ (hinv.length_tree_le hT))
  simp only [Nat.succ_eq_add_one] at hlog
  refine ⟨_, hq, ?_, fun a habs hfresh => ?_, fun a ha => ?_⟩
  · rw [(represents_pack L).steps]
    have hsteps := rbProbe_steps (c := []) hT.holds fd
      ((height_le_length T).trans hT.length_le)
    exact hsteps.trans (by omega)
  · rw [(represents_pack L).steps]
    exact (rbInsert_steps hT hq habs hfresh).trans (by omega)
  · rw [(represents_pack L).steps]
    exact (rbExtract_steps hT hq ha).trans (by omega)

/-- A service for which reads of fds 5, 3 and 7 were accepted. -/
theorem exists_service_tree : ∃ s : Svc RbMem,
    SoundService (fun _ _ => .ret) (newService 0 (fun _ => 0) fun _ => .ok) s ∧
      s.pollfds.data.length = 3 ∧ (lookup s.asyncHandlers 5).isSome ∧
      lookup s.asyncHandlers 6 = none ∧ s.asyncHandlers.node 20 = none := by
  let read (fd : ℤ) : ApiCall := .sched ⟨fd, some .read⟩ ⟨some 1, 0⟩ none
  let sound (s : Svc RbMem) (c : ApiCall) : Bool :=
    decide (s.status = .ready) && callOk (fun _ => false) (fun _ => none) s c
  let s₀ : Svc RbMem := newService 0 (fun _ => 0) fun _ => .ok
  have hrun : (apiCall (fun _ => none) s₀ (read 5)).any (fun r₁ => sound s₀ (read 5) &&
      (apiCall (fun _ => none) r₁.2 (read 3)).any fun r₂ => sound r₁.2 (read 3) &&
        (apiCall (fun _ => none) r₂.2 (read 7)).any fun r₃ => sound r₂.2 (read 7) &&
          decide (r₃.2.pollfds.data.length = 3 ∧ (lookup r₃.2.asyncHandlers 5).isSome ∧
            lookup r₃.2.asyncHandlers 6 = none ∧ r₃.2.asyncHandlers.node 20 = none)) = true := by
    decide
  simp only [Option.any_eq_true, Bool.and_eq_true, decide_eq_true_eq] at hrun
  obtain ⟨⟨code₁, s₁⟩, h₁, hok₁, ⟨code₂, s₂⟩, h₂, hok₂, ⟨code₃, s₃⟩, h₃, hok₃, hs⟩ := hrun
  have hstep : ∀ {s s' : Svc RbMem} {c : ApiCall} {code : IoErrcode}, sound s c = true →
      apiCall (fun _ => none) s c = some (code, s') →
      ∃ P, ServiceStep (fun _ _ => .ret) s P s' ∧ P := by
    intro s s' c code hok h
    simp only [sound, Bool.and_eq_true, decide_eq_true_eq] at hok
    exact ⟨_, .call c code (by simp [Live, hok.1]) h, hok.2⟩
  exact ⟨s₃, .head (hstep hok₁ h₁) (.head (hstep hok₂ h₂) (.single (hstep hok₃ h₃))), hs⟩

/-- In this tree of three nodes fd 5 is extracted, or fd 6 is inserted. -/
theorem service_tree_steps_three : ∃ (s : Svc RbMem) (p q : RbPlace × Ptr),
    s.pollfds.data.length = 3 ∧ s.asyncHandlers.rbProbe .root 5 = some p ∧
      (RbProg.rbProbe .root 5).steps (packedMem .dense) (s.asyncHandlers.pack .dense) ≤ 11 ∧
      (RbProg.rbExtract p.1 p.2).steps (packedMem .dense) (s.asyncHandlers.pack .dense) ≤ 159 ∧
      s.asyncHandlers.rbProbe .root 6 = some q ∧
      (RbProg.rbInsert 20 q.1 q.2).steps (packedMem .dense)
        ((s.asyncHandlers.makeRbnode 20 6).pack .dense) ≤ 62 := by
  obtain ⟨s, hsteps, hlen, h₅, h₆, hfresh⟩ := exists_service_tree
  obtain ⟨a, ha⟩ := Option.isSome_iff_exists.mp h₅
  have hlog : Nat.log 2 (s.pollfds.data.length + 1) = 2 := by
    rw [hlen]
    exact Nat.log_pow (by decide) 2
  obtain ⟨p, hp, hprobe, -, hextract⟩ := service_tree_steps hsteps .dense 5
  obtain ⟨q, hq, -, hinsert, -⟩ := service_tree_steps hsteps .dense 6
  rw [hlog] at hprobe hextract hinsert
  exact ⟨s, p, q, hlen, hp, hprobe, hextract a ha, hq, hinsert 20 h₆ hfresh⟩

end

end IoEngine
