import Mathlib.Data.Int.Notation
import Mathlib.Logic.Function.Basic
import IoEngine.Lib.RedBlack

/-!
# The Pointer Tree of File Descriptors

This module embeds `rbtree.c`: the red-black tree of `rb_node`s that is rooted at
`iosvc->async_handlers`, with parent pointers, at the level of single pointer writes.

## Memory

An `rb_node` is split into the part that `rbtree.c` works on (`RbLinks`: the packed
`meta` word, the two child pointers and `fd`) and the part that the service keeps in it
(`IoEngine.EventNode`). `RbMem` maps addresses to the first part. An address that is not
mapped has not been allocated or has been freed, and every access through it, as through
`NULL`, makes the operation `none`. Addresses are never handed out twice.

`meta` packs the parent pointer and the colour into one word; nodes are aligned, so the
two halves are independent and are modelled as two fields.

A slot pointer (`rb_place`, that is `rb_node **`) is either the root reference or the
child slot of a node: `RbPlace`.

## Loops

The loops follow pointers, so on a corrupted structure they need not end. They take a
fuel argument, and the operations run them with a fuel that no walk over linked nodes of
a well-formed tree exhausts (`RbMem.top` bounds the addresses in use); running out of fuel is
`none`.
-/

open RedBlack

namespace IoEngine

/-- The address of an allocated object. -/
abbrev Addr := ℕ

/-- A pointer; `none` is `NULL`. -/
abbrev Ptr := Option Addr

/-- The tree part of an `rb_node`: `meta` (colour and parent), `left`, `right`, `fd`. -/
structure RbLinks where
  /-- the colour bit of `meta` -/
  red : Bool
  /-- the pointer part of `meta` -/
  parent : Ptr
  left : Ptr
  right : Ptr
  fd : ℤ
  deriving DecidableEq, Repr

/-- `node->child[d]`. -/
def RbLinks.child (n : RbLinks) : Dir → Ptr
  | .left => n.left
  | .right => n.right

/-- The node after `node->child[d] = p`. -/
def RbLinks.setChild (n : RbLinks) (d : Dir) (p : Ptr) : RbLinks :=
  match d with
  | .left => { n with left := p }
  | .right => { n with right := p }

/-- A slot that holds a node pointer: `&iosvc->async_handlers` or `&node->child[d]`. -/
inductive RbPlace
  | root
  | child (a : Addr) (d : Dir)
  deriving DecidableEq, Repr

/-- The memory of the tree: the live nodes, the root pointer, and a bound on the
addresses handed out so far. -/
structure RbMem where
  node : Addr → Option RbLinks
  root : Ptr
  top : ℕ

namespace RbMem

/-- Write to a live node; `none` when the address is not live. -/
def modify (m : RbMem) (a : Addr) (f : RbLinks → RbLinks) : Option RbMem :=
  (m.node a).map fun n => { m with node := Function.update m.node a (some (f n)) }

/-- `*place`. -/
def load (m : RbMem) : RbPlace → Option Ptr
  | .root => some m.root
  | .child a d => (m.node a).map fun n => n.child d

/-- `*place = p`. -/
def store (m : RbMem) (p : Ptr) : RbPlace → Option RbMem
  | .root => some { m with root := p }
  | .child a d => m.modify a fun n => n.setChild d p

/-- `is_red`: `NULL` is black. -/
def isRed (m : RbMem) : Ptr → Option Bool
  | none => some false
  | some a => (m.node a).map RbLinks.red

/-- `set_red` and `set_black`. -/
def setRed (m : RbMem) (a : Addr) (red : Bool) : Option RbMem :=
  m.modify a fun n => { n with red := red }

/-- `set_parent`. -/
def setParent (m : RbMem) (a : Addr) (p : Ptr) : Option RbMem :=
  m.modify a fun n => { n with parent := p }

/-- `if (p) set_parent(p, parent)`. -/
def setParentIf (m : RbMem) (p : Ptr) (parent : Ptr) : Option RbMem :=
  match p with
  | none => some m
  | some a => m.setParent a parent

/-- `node->child[d] = p`. -/
def setChild (m : RbMem) (a : Addr) (d : Dir) (p : Ptr) : Option RbMem :=
  m.modify a fun n => n.setChild d p

/-- `swap_colors`. -/
def swapColors (m : RbMem) (a b : Addr) : Option RbMem := do
  let x ← m.node a
  let y ← m.node b
  let m ← m.setRed a y.red
  m.setRed b x.red

/-- `make_rbnode`: a red node without children or parent at a new address. -/
def makeRbnode (m : RbMem) (a : Addr) (fd : ℤ) : RbMem :=
  { m with
    node := Function.update m.node a
      (some { red := true, parent := none, left := none, right := none, fd := fd })
    top := max m.top (a + 1) }

/-- `free` of a node. -/
def free (m : RbMem) (a : Addr) : RbMem :=
  { m with node := Function.update m.node a none }

/-- The loop of `predecessor`: `while ((*pred)->right) pred = &(*pred)->right;`. -/
def predecessorLoop (m : RbMem) : ℕ → RbPlace → Option RbPlace
  | 0, _ => none
  | fuel + 1, pred => do
      let a ← ← m.load pred
      let n ← m.node a
      if n.right.isSome then predecessorLoop m fuel (.child a .right) else some pred

/-- `predecessor`: the slot of the last node in the left subtree. -/
def predecessor (m : RbMem) (a : Addr) : Option RbPlace :=
  m.predecessorLoop (m.top + 1) (.child a .left)

/-- `&parent->child[parent->child[RIGHT] == node]`, or the root reference without a
parent. -/
def linkTo (m : RbMem) (parent : Ptr) (a : Addr) : Option RbPlace :=
  match parent with
  | none => some .root
  | some p => (m.node p).map fun n => .child p (if n.right = some a then .right else .left)

/-- `rb_rotate`. -/
def rbRotate (m : RbMem) (a : Addr) (dir : Dir) : Option RbMem := do
  let n ← m.node a
  let pLink ← m.linkTo n.parent a
  let b ← n.child dir.opp
  let c ← m.node b
  let grandchild := c.child dir
  let m ← m.setParent b n.parent
  let m ← m.store (some b) pLink
  let m ← m.setChild a dir.opp grandchild
  let m ← m.setParentIf grandchild (some a)
  let m ← m.setChild b dir (some a)
  m.setParent a (some b)

/-- `rb_ref_to_this`: the slot of a node, found through its parent pointer, and the
parent. -/
def rbRefToThis (m : RbMem) (a : Addr) : Option (RbPlace × Ptr) := do
  let n ← m.node a
  match n.parent with
  | none => some (.root, none)
  | some p =>
      let pn ← m.node p
      some (.child p (if pn.right = some a then .right else .left), some p)

/-- The loop of `rb_probe`. -/
def rbProbeLoop (m : RbMem) (fd : ℤ) : ℕ → RbPlace → Ptr → Option (RbPlace × Ptr)
  | 0, _, _ => none
  | fuel + 1, place, parent => do
      match ← m.load place with
      | none => some (place, parent)
      | some a =>
          let n ← m.node a
          if n.fd = fd then some (place, parent)
          else rbProbeLoop m fd fuel (.child a (if n.fd < fd then .right else .left)) (some a)

/-- `rb_probe` from a given slot: the slot where `fd` is or belongs, and the node that
holds that slot. The parent starts as `NULL`, whatever node holds the first slot. -/
def rbProbe (m : RbMem) (place : RbPlace) (fd : ℤ) : Option (RbPlace × Ptr) :=
  m.rbProbeLoop fd (m.top + 1) place none

/-- The loop of `fix_insert`. -/
def fixInsertLoop : ℕ → RbMem → Addr → Ptr → Option RbMem
  | 0, _, _, _ => none
  | fuel + 1, m, node, parent => do
      if ← m.isRed parent then
        let p ← parent
        let pn ← m.node p
        match pn.parent with
        | none => some m
        | some g =>
            let gn ← m.node g
            let parentDir := if gn.right = some p then Dir.right else Dir.left
            let uncle := gn.child parentDir.opp
            if ← m.isRed uncle then
              let u ← uncle
              let m ← m.setRed u false
              let m ← m.setRed p false
              let m ← m.setRed g true
              let gn ← m.node g
              fixInsertLoop fuel m g gn.parent
            else
              let nodeDir := if pn.right = some node then Dir.right else Dir.left
              if parentDir ≠ nodeDir then
                -- the mixed case rotates the parent first and then treats `node` as the parent
                let m ← m.rbRotate p parentDir
                let m ← m.rbRotate g parentDir.opp
                let m ← m.setRed g true
                m.setRed node false
              else
                let m ← m.rbRotate g parentDir.opp
                let m ← m.setRed g true
                m.setRed p false
      else some m

/-- `fix_insert`. -/
def fixInsert (m : RbMem) (node : Addr) (parent : Ptr) : Option RbMem :=
  fixInsertLoop (m.top + 1) m node parent

/-- `rb_insert`. -/
def rbInsert (m : RbMem) (node : Addr) (place : RbPlace) (parent : Ptr) : Option RbMem := do
  let m ← m.store (some node) place
  let m ← m.setParent node parent
  let m ← if ← m.isRed parent then m.fixInsert node parent else some m
  m.setRed (← m.root) false

/-- The `NEAR` case of `fix_delete`: move the red child of the sibling `s` from the near
to the far side, and return the new sibling. -/
def nearToFar (m : RbMem) (p s : Addr) (dirToDb : Dir) : Option (RbMem × Addr) := do
  let sn ← m.node s
  let m ← m.setRed (← sn.child dirToDb) false
  let m ← m.setRed s true
  let m ← m.rbRotate s dirToDb.opp
  let pn ← m.node p
  let s ← pn.child dirToDb.opp
  some (m, s)

/-- The end of `fix_delete` when the far child of the sibling `s` is red. -/
def closeDelete (m : RbMem) (p s : Addr) (dirToDb : Dir) : Option RbMem := do
  let sn ← m.node s
  let m ← m.setRed (← sn.child dirToDb.opp) false
  let m ← m.swapColors p s
  m.rbRotate p dirToDb

/-- `if (db) set_black(db);` after the loop of `fix_delete`. -/
def blackenDb (m : RbMem) : Ptr → Option RbMem
  | none => some m
  | some a => m.setRed a false

/-- The loop of `fix_delete`. -/
def fixDeleteLoop : ℕ → RbMem → Ptr → Ptr → Option RbMem
  | 0, _, _, _ => none
  | fuel + 1, m, db, parent => do
      if ← m.isRed db then m.blackenDb db
      else
        match parent with
        | none => m.blackenDb db
        | some p =>
            let pn ← m.node p
            let dirToDb := if pn.right = db then Dir.right else Dir.left
            let sibling := pn.child dirToDb.opp
            if ← m.isRed sibling then
              let s ← sibling
              let m ← m.setRed p true
              let m ← m.setRed s false
              let m ← m.rbRotate p dirToDb
              fixDeleteLoop fuel m db parent
            else
              let s ← sibling
              let sn ← m.node s
              if ← m.isRed (sn.child dirToDb.opp) then m.closeDelete p s dirToDb
              else if ← m.isRed (sn.child dirToDb) then
                let (m, s) ← m.nearToFar p s dirToDb
                m.closeDelete p s dirToDb
              else
                let m ← m.setRed s true
                let pn ← m.node p
                fixDeleteLoop fuel m (some p) pn.parent

/-- `fix_delete`. -/
def fixDelete (m : RbMem) (db parent : Ptr) : Option RbMem :=
  fixDeleteLoop (2 * m.top + 2) m db parent

/-- The node `curr` at `place` trades places with its left child `pred`; the right
children are still to be exchanged. -/
def swapAdjacent (m : RbMem) (place : RbPlace) (parent : Ptr) (pred curr : Addr) :
    Option RbMem := do
  let m ← m.store (some pred) place
  let m ← m.setParent pred parent
  let m ← m.setParent curr (some pred)
  let pn ← m.node pred
  let m ← m.setChild pred .left (some curr)
  let m ← m.setChild curr .left pn.left
  m.setParentIf pn.left (some curr)

/-- The node `curr` at `place` trades places with `pred` at `predLoc`, which is not its
child; the right children are still to be exchanged. -/
def swapApart (m : RbMem) (place : RbPlace) (parent : Ptr) (predLoc : RbPlace)
    (pred curr : Addr) : Option RbMem := do
  let pn ← m.node pred
  let m ← m.setParent curr pn.parent
  let m ← m.setParent pred parent
  let m ← m.store (some pred) place
  let m ← m.store (some curr) predLoc
  let cn ← m.node curr
  let pn ← m.node pred
  let m ← m.setChild curr .left pn.left
  let m ← m.setChild pred .left cn.left
  let m ← m.setParentIf pn.left (some curr)
  let tmp ← cn.left
  m.setParent tmp (some pred)

/-- The right child of `curr` moves to `pred`, which has none. -/
def moveRight (m : RbMem) (pred curr : Addr) : Option RbMem := do
  let cn ← m.node curr
  let m ← m.setChild curr .right none
  let m ← m.setChild pred .right cn.right
  m.setParentIf cn.right (some pred)

/-- The first half of `rb_extract` for a node with two children: the node `curr` at
`place` trades places with its predecessor, and its new slot and parent are probed for,
starting from the left slot of the predecessor. -/
def swapWithPredecessor (m : RbMem) (place : RbPlace) (parent : Ptr) (curr : Addr) (fd : ℤ) :
    Option (RbMem × RbPlace × Ptr) := do
  let predLoc ← m.predecessor curr
  let pred ← ← m.load predLoc
  let m ← m.swapColors pred curr
  let cn ← m.node curr
  let m ← (if cn.left = some pred then m.swapAdjacent place parent pred curr
    else m.swapApart place parent predLoc pred curr : Option RbMem)
  let m ← m.moveRight pred curr
  let r ← m.rbProbe (.child pred .left) fd
  some (m, r)

/-- The second half of `rb_extract`: the node `curr` at `place`, which has at most one
child, is replaced by that child. -/
def unlink (m : RbMem) (place : RbPlace) (parent : Ptr) (curr : Addr) : Option RbMem := do
  let cn ← m.node curr
  let son := if cn.left.isSome then cn.left else cn.right
  let m ← m.store son place
  let m ← m.setParentIf son parent
  if cn.red then some m else m.fixDelete son parent

/-- `rb_extract`: unlink the node at `place` and return it. -/
def rbExtract (m : RbMem) (place : RbPlace) (parent : Ptr) : Option (Addr × RbMem) := do
  let curr ← ← m.load place
  let cn ← m.node curr
  let (m, place, parent) ← (if cn.left.isSome ∧ cn.right.isSome then
      m.swapWithPredecessor place parent curr cn.fd
    else some (m, place, parent) : Option (RbMem × RbPlace × Ptr))
  let m ← m.unlink place parent curr
  some (curr, m)

end RbMem

end IoEngine
