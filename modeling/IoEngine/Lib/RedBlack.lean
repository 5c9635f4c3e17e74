import Mathlib.Algebra.Ring.Nat
import Mathlib.Data.List.Basic
import Mathlib.Data.List.Perm.Basic
import Mathlib.Data.Nat.Log

/-!
# Red-Black Trees With a Hole

A red-black tree is a binary tree with a colour bit in every node. The algorithms that
repair one after an insertion or a deletion work at a position that moves towards the
root, so the natural object is a tree together with a *context*: the list of frames
from the position up to the root. This module develops both over an arbitrary element
type, with the two directions treated alike (`ColTree.side`).

* `ColTree.Balanced t n`: no red node has a red child and every path to a leaf passes
  exactly `n` black nodes.
* `Fits c n`: a black-rooted tree of black height `n` may stand in the hole of `c`.
* `isRedBlack_plug` and `fits_of_isRedBlack`: a plugged tree is a red-black tree exactly
  when the context and the subtree fit together.
* `IsRedBlack.height_le`: a red-black tree is at most twice as high as the logarithm of its size.

The repair steps (`Balanced` of a recoloured or rotated subtree) are one lemma each, so
that a proof about an implementation only has to say which step it takes.
-/

namespace RedBlack

/-- The two child positions of a node. -/
inductive Dir
  | left
  | right
  deriving DecidableEq, Repr

/-- The other direction. -/
def Dir.opp : Dir → Dir
  | left => right
  | right => left

@[simp] theorem Dir.opp_opp (d : Dir) : d.opp.opp = d := by cases d <;> rfl

@[simp] theorem Dir.opp_ne (d : Dir) : d.opp ≠ d := by cases d <;> decide

@[simp] theorem Dir.ne_opp (d : Dir) : d ≠ d.opp := by cases d <;> decide

/-- A direction is `d` or its opposite. -/
theorem Dir.eq_or_eq_opp (d e : Dir) : e = d ∨ e = d.opp := by
  cases d <;> cases e <;> decide

/-- Binary trees with a colour bit (`true` is red) in every node. -/
inductive ColTree (α : Type)
  | nil
  | node (red : Bool) (l : ColTree α) (x : α) (r : ColTree α)

namespace ColTree

variable {α : Type}

/-- The elements in order. -/
def toList : ColTree α → List α
  | nil => []
  | node _ l x r => l.toList ++ x :: r.toList

/-- The root is a red node. -/
def isRed : ColTree α → Bool
  | nil => false
  | node red _ _ _ => red

/-- The tree with its root coloured black. -/
def blacken : ColTree α → ColTree α
  | nil => nil
  | node _ l x r => node false l x r

/-- A node given by the child in direction `d` and the child on the other side. -/
def side (d : Dir) (red : Bool) (x : α) (near far : ColTree α) : ColTree α :=
  match d with
  | .left => node red near x far
  | .right => node red far x near

/-- A tree given by its sides has the colour of its root. -/
@[simp] theorem isRed_side (d : Dir) (red : Bool) (x : α) (near far : ColTree α) :
    (side d red x near far).isRed = red := by cases d <;> rfl

/-- A tree given by its sides is not empty. -/
@[simp] theorem side_ne_nil (d : Dir) (red : Bool) (x : α) (near far : ColTree α) :
    side d red x near far ≠ nil := by cases d <;> simp [side]

/-- Blackening a tree given by its sides changes its root only. -/
@[simp] theorem blacken_side (d : Dir) (red : Bool) (x : α) (near far : ColTree α) :
    (side d red x near far).blacken = side d false x near far := by cases d <;> rfl

/-- Seen from the other side a node has its children exchanged. -/
theorem side_opp (d : Dir) (red : Bool) (x : α) (near far : ColTree α) :
    side d.opp red x near far = side d red x far near := by cases d <;> rfl

/-- Every tree but the empty one is a node seen from either direction. -/
theorem exists_side {t : ColTree α} (h : t ≠ nil) (d : Dir) :
    ∃ red x near far, t = side d red x near far := by
  cases t with
  | nil => exact absurd rfl h
  | node red l x r =>
      cases d with
      | left => exact ⟨red, x, l, r, rfl⟩
      | right => exact ⟨red, x, r, l, rfl⟩

/-- A red root belongs to a node. -/
theorem ne_nil_of_isRed {t : ColTree α} (h : t.isRed = true) : t ≠ nil := by
  rintro rfl
  simp [isRed] at h

/-- Blackening keeps the elements. -/
@[simp] theorem toList_blacken (t : ColTree α) : t.blacken.toList = t.toList := by
  cases t <;> rfl

/-- A blackened tree is not red. -/
@[simp] theorem isRed_blacken (t : ColTree α) : t.blacken.isRed = false := by
  cases t <;> rfl

/-- Blackening changes nothing when the root is not red. -/
theorem blacken_eq_self {t : ColTree α} (h : t.isRed = false) : t.blacken = t := by
  cases t with
  | nil => rfl
  | node red l x r =>
      simp only [isRed] at h
      simp [blacken, h]

/-- The elements of a node, up to order, do not depend on the direction it is seen from. -/
theorem toList_side_perm (d : Dir) (red : Bool) (x : α) (near far : ColTree α) :
    (side d red x near far).toList.Perm (x :: (near.toList ++ far.toList)) := by
  cases d with
  | left => exact List.perm_middle
  | right =>
      refine List.perm_middle.trans ?_
      exact List.Perm.cons _ List.perm_append_comm

/-- Colours do not matter to the order of the elements. -/
theorem toList_side_congr (d : Dir) (red red' : Bool) (x : α)
    {near near' far far' : ColTree α} (hn : near.toList = near'.toList)
    (hf : far.toList = far'.toList) :
    (side d red x near far).toList = (side d red' x near' far').toList := by
  cases d <;> simp [side, toList, hn, hf]

/-- A rotation keeps the order of the elements. -/
theorem toList_rotate (d : Dir) (c₁ c₂ c₃ c₄ : Bool) (x y : α) (A B C : ColTree α) :
    (side d c₁ y (side d c₂ x A B) C).toList =
      (side d c₃ x A (side d c₄ y B C)).toList := by
  cases d <;> simp [side, toList, List.append_assoc]

/-- `Balanced t n`: no red node of `t` has a red child, and every path from the root to
a leaf passes exactly `n` black nodes. -/
def Balanced : ColTree α → ℕ → Prop
  | nil, n => n = 0
  | node true l _ r, n => l.isRed = false ∧ r.isRed = false ∧ Balanced l n ∧ Balanced r n
  | node false l _ r, n => ∃ k, n = k + 1 ∧ Balanced l k ∧ Balanced r k

@[simp] theorem balanced_nil {n : ℕ} : Balanced (nil : ColTree α) n ↔ n = 0 := Iff.rfl

/-- A red root needs two black sides of its own height. -/
@[simp] theorem balanced_side_red (d : Dir) (x : α) (near far : ColTree α) (n : ℕ) :
    Balanced (side d true x near far) n ↔
      near.isRed = false ∧ far.isRed = false ∧ Balanced near n ∧ Balanced far n := by
  cases d with
  | left => exact Iff.rfl
  | right =>
      simp only [side, Balanced]
      tauto

/-- A black root adds one to the height of its sides. -/
@[simp] theorem balanced_side_black (d : Dir) (x : α) (near far : ColTree α) (n : ℕ) :
    Balanced (side d false x near far) (n + 1) ↔ Balanced near n ∧ Balanced far n := by
  cases d with
  | left => simp [side, Balanced]
  | right => simp [side, Balanced, and_comm]

/-- A tree that does not start with a red node has a node exactly when its black height
is positive. -/
theorem ne_nil_of_balanced_succ {t : ColTree α} {n : ℕ} (h : Balanced t (n + 1)) :
    t ≠ nil := by
  rintro rfl
  simp at h

/-- A black node of black height `n` has children of black height one less. -/
theorem exists_of_balanced_black {t : ColTree α} {n : ℕ} (h : Balanced t n) (ht : t ≠ nil)
    (hb : t.isRed = false) : ∃ k, n = k + 1 := by
  cases t with
  | nil => exact absurd rfl ht
  | node red l x r =>
      obtain rfl : red = false := hb
      obtain ⟨k, rfl, -⟩ := h
      exact ⟨k, rfl⟩

/-- Blackening a red root adds one to the black height. -/
theorem Balanced.blacken_of_isRed {t : ColTree α} {n : ℕ} (h : Balanced t n)
    (hr : t.isRed = true) : Balanced t.blacken (n + 1) := by
  cases t with
  | nil => simp [isRed] at hr
  | node red l x r =>
      obtain rfl : red = true := hr
      exact ⟨n, rfl, h.2.2.1, h.2.2.2⟩

/-- A red-black tree: balanced, with a root that is not red. -/
def IsRedBlack (t : ColTree α) : Prop :=
  t.isRed = false ∧ ∃ n, Balanced t n

end ColTree

open ColTree

variable {α : Type}

/-- One level of a context: a node whose child in direction `dir` is the hole. -/
structure Frame (α : Type) where
  /-- the side of the hole -/
  dir : Dir
  /-- the colour of the node -/
  red : Bool
  /-- the element of the node -/
  elem : α
  /-- the child on the other side -/
  sib : ColTree α

/-- A context: the frames from the hole up to the root. -/
abbrev Ctx (α : Type) := List (Frame α)

namespace Ctx

/-- Fill the hole. -/
def plug : Ctx α → ColTree α → ColTree α
  | [], t => t
  | f :: c, t => plug c (side f.dir f.red f.elem t f.sib)

/-- The node above the hole is red. -/
def headRed : Ctx α → Bool
  | [] => false
  | f :: _ => f.red

/-- The elements before the hole, in order. -/
def before : Ctx α → List α
  | [] => []
  | f :: c =>
      match f.dir with
      | .left => before c
      | .right => before c ++ f.sib.toList ++ [f.elem]

/-- The elements after the hole, in order. -/
def after : Ctx α → List α
  | [] => []
  | f :: c =>
      match f.dir with
      | .left => f.elem :: f.sib.toList ++ after c
      | .right => after c

/-- All elements of a context, the frame's own element first. -/
def elems : Ctx α → List α
  | [] => []
  | f :: c => f.elem :: (f.sib.toList ++ elems c)

/-- In a plugged tree the elements of the subtree stand between those of the context. -/
theorem toList_plug (c : Ctx α) (t : ColTree α) :
    (plug c t).toList = before c ++ t.toList ++ after c := by
  induction c generalizing t with
  | nil => simp [plug, before, after]
  | cons f c ih =>
      obtain ⟨d, red, x, s⟩ := f
      rw [plug, ih]
      cases d <;> simp [side, toList, before, after, List.append_assoc]

/-- The elements of a plugged tree, up to order. -/
theorem toList_plug_perm (c : Ctx α) (t : ColTree α) :
    (plug c t).toList.Perm (t.toList ++ elems c) := by
  induction c generalizing t with
  | nil => simp [plug, elems]
  | cons f c ih =>
      refine (ih _).trans ?_
      refine ((toList_side_perm f.dir f.red f.elem t f.sib).append_right _).trans ?_
      simp only [elems, List.cons_append, List.append_assoc]
      exact List.perm_middle.symm

/-- Plugging is compatible with appending contexts. -/
theorem plug_append (c₁ c₂ : Ctx α) (t : ColTree α) :
    plug (c₁ ++ c₂) t = plug c₂ (plug c₁ t) := by
  induction c₁ generalizing t with
  | nil => rfl
  | cons f c ih => simp only [List.cons_append, plug, ih]

/-- A black-rooted tree of black height `n` may stand in the hole: the siblings have the
right black height, no frame is red below a red one, and the root frame is black. -/
def Fits : Ctx α → ℕ → Prop
  | [], _ => True
  | f :: c, n =>
      Balanced f.sib n ∧
        if f.red then f.sib.isRed = false ∧ headRed c = false ∧ c ≠ [] ∧ Fits c n
        else Fits c (n + 1)

/-- A red frame needs a black sibling of the same height, and is not the root. -/
theorem fits_cons_red {d : Dir} {x : α} {s : ColTree α} {c : Ctx α} {n : ℕ} :
    Fits (⟨d, true, x, s⟩ :: c) n ↔
      Balanced s n ∧ s.isRed = false ∧ headRed c = false ∧ c ≠ [] ∧ Fits c n := by
  simp [Fits]

/-- A black frame needs a sibling of the same height, and adds one. -/
theorem fits_cons_black {d : Dir} {x : α} {s : ColTree α} {c : Ctx α} {n : ℕ} :
    Fits (⟨d, false, x, s⟩ :: c) n ↔ Balanced s n ∧ Fits c (n + 1) := by
  simp [Fits]

/-- A subtree may be coloured red below this context: the node above it is black. -/
def AllowsRed (c : Ctx α) : Prop :=
  headRed c = false ∧ c ≠ []

/-- A fitting subtree in a fitting context makes a red-black tree. -/
theorem isRedBlack_plug {c : Ctx α} {t : ColTree α} {n : ℕ} (hc : Fits c n)
    (ht : Balanced t n) (hr : t.isRed = true → AllowsRed c) :
    IsRedBlack (plug c t) := by
  induction c generalizing t n with
  | nil =>
      refine ⟨?_, n, ht⟩
      cases hcol : t.isRed with
      | false => exact hcol
      | true => exact absurd rfl (hr hcol).2
  | cons f c ih =>
      obtain ⟨d, red, x, s⟩ := f
      cases red with
      | true =>
          obtain ⟨hs, hsb, hh, hne, hf⟩ := fits_cons_red.mp hc
          have htb : t.isRed = false := by
            cases hcol : t.isRed with
            | false => rfl
            | true => exact absurd (hr hcol).1 (by simp [headRed])
          exact ih hf (by simp [htb, hsb, ht, hs]) fun _ => ⟨hh, hne⟩
      | false =>
          obtain ⟨hs, hf⟩ := fits_cons_black.mp hc
          exact ih hf (by simp [ht, hs]) fun h => by simp at h

/-- A red-black tree splits, at every position, into a context and a subtree that fit
together. -/
theorem fits_of_isRedBlack {c : Ctx α} {t : ColTree α} (h : IsRedBlack (plug c t)) :
    ∃ n, Fits c n ∧ Balanced t n ∧ (t.isRed = true → AllowsRed c) := by
  induction c generalizing t with
  | nil =>
      obtain ⟨hb, n, hn⟩ := h
      exact ⟨n, trivial, hn, fun hr => absurd (hr.symm.trans hb) (by simp)⟩
  | cons f c ih =>
      obtain ⟨d, red, x, s⟩ := f
      obtain ⟨n, hf, hbal, hr⟩ := ih h
      cases red with
      | true =>
          obtain ⟨htb, hsb, ht, hs⟩ := (balanced_side_red d x t s n).mp hbal
          obtain ⟨hh, hne⟩ := hr (by simp)
          refine ⟨n, fits_cons_red.mpr ⟨hs, hsb, hh, hne, hf⟩, ht, fun h => ?_⟩
          rw [htb] at h
          exact absurd h (by simp)
      | false =>
          obtain ⟨k, rfl⟩ := exists_of_balanced_black hbal (side_ne_nil _ _ _ _ _) (by simp)
          obtain ⟨ht, hs⟩ := (balanced_side_black d x t s k).mp hbal
          exact ⟨k, fits_cons_black.mpr ⟨hs, hf⟩, ht, fun _ => ⟨rfl, by simp⟩⟩

/-! ### The steps of an insertion -/

/-- **Recolouring**: a red node below a red parent with a red uncle is repaired locally by
moving the black of the grandparent down. -/
theorem balanced_recolour {d₁ d₂ : Dir} {p g : α} {t s u : ColTree α} {c : Ctx α} {n : ℕ}
    (hf : Fits (⟨d₁, true, p, s⟩ :: ⟨d₂, false, g, u⟩ :: c) n) (ht : Balanced t n)
    (hu : u.isRed = true) :
    Balanced (side d₂ true g (side d₁ false p t s) u.blacken) (n + 1) ∧ Fits c (n + 1) := by
  obtain ⟨hs, -, -, -, hf⟩ := fits_cons_red.mp hf
  obtain ⟨hub, hf⟩ := fits_cons_black.mp hf
  refine ⟨?_, hf⟩
  rw [balanced_side_red, balanced_side_black]
  exact ⟨isRed_side .., isRed_blacken _, ⟨ht, hs⟩, hub.blacken_of_isRed hu⟩

/-- **Straight rotation** of an insertion: the parent takes the place of the grandparent. -/
theorem balanced_straight {d d₁ d₂ : Dir} {p g : α} {t s u : ColTree α} {c : Ctx α} {n : ℕ}
    (hf : Fits (⟨d₁, true, p, s⟩ :: ⟨d₂, false, g, u⟩ :: c) n) (ht : Balanced t n)
    (hu : u.isRed = false) :
    Balanced (side d false p t (side d true g s u)) (n + 1) ∧ Fits c (n + 1) := by
  obtain ⟨hs, hsb, -, -, hf⟩ := fits_cons_red.mp hf
  obtain ⟨hub, hf⟩ := fits_cons_black.mp hf
  refine ⟨?_, hf⟩
  rw [balanced_side_black, balanced_side_red]
  exact ⟨ht, hsb, hu, hs, hub⟩

/-- **Mixed rotation** of an insertion: the new node takes the place of the grandparent. -/
theorem balanced_mixed {d e d₁ d₂ : Dir} {x p g : α} {A B s u : ColTree α} {c : Ctx α} {n : ℕ}
    (hf : Fits (⟨d₁, true, p, s⟩ :: ⟨d₂, false, g, u⟩ :: c) n)
    (ht : Balanced (side e true x A B) n) (hu : u.isRed = false) :
    Balanced (side d false x (side d true p s A) (side d true g B u)) (n + 1) ∧
      Fits c (n + 1) := by
  obtain ⟨hs, hsb, -, -, hf⟩ := fits_cons_red.mp hf
  obtain ⟨hub, hf⟩ := fits_cons_black.mp hf
  obtain ⟨hA, hB, hAn, hBn⟩ := (balanced_side_red ..).mp ht
  refine ⟨?_, hf⟩
  simp only [balanced_side_black, balanced_side_red]
  exact ⟨⟨hsb, hA, hs, hAn⟩, hB, hu, hBn, hub⟩

/-! ### The steps of a deletion

The hole holds a tree whose black height is one less than the context asks for. -/

/-- The sibling of a hole that is short of one black node is not empty. -/
theorem sib_ne_nil {f : Frame α} {c : Ctx α} {n : ℕ} (hf : Fits (f :: c) (n + 1)) :
    f.sib ≠ nil :=
  ne_nil_of_balanced_succ hf.1

/-- A **red sibling** is rotated above the parent; the hole then has a black sibling and
a red parent. -/
theorem fits_redSibling {d : Dir} {red : Bool} {p y : α} {Y₁ Y₂ : ColTree α} {c : Ctx α} {n : ℕ}
    (hf : Fits (⟨d, red, p, side d true y Y₁ Y₂⟩ :: c) (n + 1)) :
    red = false ∧ Y₁.isRed = false ∧
      Fits (⟨d, true, p, Y₁⟩ :: ⟨d, false, y, Y₂⟩ :: c) (n + 1) := by
  cases red with
  | true =>
      have h := (fits_cons_red.mp hf).2.1
      simp at h
  | false =>
      obtain ⟨hs, hc⟩ := fits_cons_black.mp hf
      obtain ⟨h₁, h₂, hn₁, hn₂⟩ := (balanced_side_red ..).mp hs
      refine ⟨rfl, h₁, ?_⟩
      rw [fits_cons_red, fits_cons_black]
      exact ⟨hn₁, h₁, rfl, by simp, hn₂, hc⟩

/-- What a context whose first frame is removed still allows: the subtree may have the
colour of that frame, and the black height grows with a black frame. -/
theorem fits_tail {d : Dir} {red : Bool} {p : α} {s : ColTree α} {c : Ctx α} {n : ℕ}
    (hf : Fits (⟨d, red, p, s⟩ :: c) n) :
    Fits c (bif red then n else n + 1) ∧ (red = true → AllowsRed c) := by
  cases red with
  | true =>
      obtain ⟨-, -, hh, hne, hc⟩ := fits_cons_red.mp hf
      exact ⟨hc, fun _ => ⟨hh, hne⟩⟩
  | false => exact ⟨(fits_cons_black.mp hf).2, fun h => by simp at h⟩

/-- A black sibling is a black node whose children are as high as the hole's tree. -/
theorem blackSibling_balanced {d e : Dir} {red : Bool} {p y : α} {Y₁ Y₂ : ColTree α} {c : Ctx α}
    {n : ℕ} (hf : Fits (⟨d, red, p, side e false y Y₁ Y₂⟩ :: c) (n + 1)) :
    Balanced Y₁ n ∧ Balanced Y₂ n :=
  (balanced_side_black ..).mp hf.1

/-- The subtree that a closing rotation of a deletion leaves: its root has the colour of
the old parent, its children are black and of black height `n + 1`. -/
theorem balanced_closing (d : Dir) (red : Bool) (y : α) {L R : ColTree α} {n : ℕ}
    (hL : L.isRed = false) (hR : R.isRed = false) (hLn : Balanced L (n + 1))
    (hRn : Balanced R (n + 1)) :
    Balanced (side d red y L R) (bif red then n + 1 else n + 2) := by
  cases red with
  | true => simpa using ⟨hL, hR, hLn, hRn⟩
  | false => simpa using ⟨hLn, hRn⟩

/-- A **black sibling with black children** is coloured red, and the parent's subtree is
then short of one black node itself, unless the parent was red and is coloured black. -/
theorem balanced_redden {d : Dir} {p y : α} {t Y₁ Y₂ : ColTree α} {n : ℕ} (ht : Balanced t n)
    (h₁ : Balanced Y₁ n) (h₂ : Balanced Y₂ n) (hb₁ : Y₁.isRed = false)
    (hb₂ : Y₂.isRed = false) :
    Balanced (side d false p t (side d true y Y₁ Y₂)) (n + 1) := by
  rw [balanced_side_black, balanced_side_red]
  exact ⟨ht, hb₁, hb₂, h₁, h₂⟩

end Ctx

/-! ### Height -/

namespace ColTree

/-- The number of nodes on a longest path. -/
def height : ColTree α → ℕ
  | nil => 0
  | node _ l _ r => max l.height r.height + 1

/-- A tree is no higher than it has elements. -/
theorem height_le_length (t : ColTree α) : t.height ≤ t.toList.length := by
  induction t with
  | nil => exact Nat.le_refl 0
  | node red l x r ihl ihr =>
      simp only [height, toList, List.length_append, List.length_cons]
      omega

/-- The path to the hole and a path below it make a path of the whole tree. -/
theorem height_plug_le (c : Ctx α) (t : ColTree α) :
    c.length + t.height ≤ (Ctx.plug c t).height := by
  induction c generalizing t with
  | nil => exact (Nat.zero_add _).le
  | cons f c ih =>
      have hside : t.height + 1 ≤ (side f.dir f.red f.elem t f.sib).height := by
        cases f.dir <;> simp only [side, height] <;> omega
      have hplug := ih (side f.dir f.red f.elem t f.sib)
      rw [List.length_cons]
      exact le_trans (by omega) hplug

/-- At most every other node of a path is red. -/
theorem Balanced.height_le {t : ColTree α} {n : ℕ} (h : Balanced t n) :
    t.height ≤ 2 * n + t.isRed.toNat := by
  induction t generalizing n with
  | nil => exact Nat.zero_le _
  | node red l x r ihl ihr =>
      cases red with
      | true =>
          obtain ⟨hl, hr, hbl, hbr⟩ := h
          have h₁ := ihl hbl
          have h₂ := ihr hbr
          simp only [hl, hr, Bool.toNat_false, Nat.add_zero] at h₁ h₂
          simp only [height, isRed, Bool.toNat_true]
          omega
      | false =>
          obtain ⟨k, rfl, hbl, hbr⟩ := h
          have h₁ := ihl hbl
          have h₂ := ihr hbr
          have h₃ := Bool.toNat_le l.isRed
          have h₄ := Bool.toNat_le r.isRed
          simp only [height, isRed, Bool.toNat_false]
          omega

/-- A tree has at least the nodes of a full tree of its black height. -/
theorem Balanced.two_pow_le {t : ColTree α} {n : ℕ} (h : Balanced t n) :
    2 ^ n ≤ t.toList.length + 1 := by
  induction t generalizing n with
  | nil =>
      obtain rfl : n = 0 := h
      exact Nat.le_refl 1
  | node red l x r ihl ihr =>
      simp only [toList, List.length_append, List.length_cons]
      cases red with
      | true =>
          have hl := ihl h.2.2.1
          omega
      | false =>
          obtain ⟨k, rfl, hbl, hbr⟩ := h
          have hl := ihl hbl
          have hr := ihr hbr
          rw [Nat.pow_succ]
          omega

/-- **A red-black tree is low.** -/
theorem IsRedBlack.height_le {t : ColTree α} (h : IsRedBlack t) :
    t.height ≤ 2 * Nat.log 2 (t.toList.length + 1) := by
  obtain ⟨hroot, n, hbal⟩ := h
  have hheight := hbal.height_le
  have hlog : n ≤ Nat.log 2 (t.toList.length + 1) :=
    Nat.le_log_of_pow_le (Nat.one_lt_two) hbal.two_pow_le
  rw [hroot, Bool.toNat_false] at hheight
  omega

end ColTree

end RedBlack
