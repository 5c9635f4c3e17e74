import Mathlib.Data.Nat.Bitwise
import IoEngine.FdTree
import IoEngine.Lib.Programs

/-!
# The Packed Word of a Node

`rbtree.c` keeps the parent pointer and the colour of a node in one word, `meta`: nodes are
aligned, so the lowest bit of a pointer to one is free. `RbTree` models the two as two fields. Here
the word is kept as it is, `PackedMem`, with the bit operations of `rbtree.c` on it, and the
functions of `rbtree.c` are written as programs over these operations, so that they have a meaning
in both memories.

A word is a number without an upper bound, as an address is.

## Main results

* `represents_pack`: each operation on packed words does what the one on fields does.
* `run_rbInsert`, `run_rbExtract`, …: the functions of `RbTree` are the programs.
* `PackedTree`: a tree with packed words is a lawful `FdTree`, so that what is said of a service
  with any such tree is said of one with packed words.
* `rbtree_packed`: **the functions of `rbtree.c` on packed words** do what those of `RbTree` do.
-/

open RedBlack Programs

namespace IoEngine

/-! ### Words -/

/-- **Where the nodes are**: at even addresses other than 0, from which the node is found again. -/
structure NodeLayout where
  word : Addr → ℕ
  addr : ℕ → Addr
  addr_word : ∀ a, addr (word a) = a
  even : ∀ a, word a % 2 = 0
  pos : ∀ a, 0 < word a

/-- Nodes side by side. -/
def NodeLayout.dense : NodeLayout where
  word a := 2 * a + 2
  addr w := w / 2 - 1
  addr_word (a : ℕ) := by
    show (2 * a + 2) / 2 - 1 = a
    omega
  even (a : ℕ) := by
    show (2 * a + 2) % 2 = 0
    omega
  pos a := Nat.succ_pos _

/-- A pointer as a word. -/
def NodeLayout.ofPtr (L : NodeLayout) : Ptr → ℕ
  | none => 0
  | some a => L.word a

/-- A word as a pointer. -/
def NodeLayout.toPtr (L : NodeLayout) (w : ℕ) : Ptr :=
  if w = 0 then none else some (L.addr w)

/-- A pointer is found again from its word. -/
theorem NodeLayout.toPtr_ofPtr (L : NodeLayout) (p : Ptr) : L.toPtr (L.ofPtr p) = p := by
  cases p with
  | none => rfl
  | some a => rw [ofPtr, toPtr, if_neg (L.pos a).ne', L.addr_word]

/-- The lowest bit of the word of a pointer is free. -/
theorem NodeLayout.testBit_ofPtr (L : NodeLayout) (p : Ptr) : (L.ofPtr p).testBit 0 = false := by
  cases p with
  | none => exact Nat.zero_testBit 0
  | some a => simp [ofPtr, Nat.testBit_zero, L.even a]

/-- `w & ~1UL`. -/
def clearLow (w : ℕ) : ℕ := w >>> 1 <<< 1

section

variable {w v : ℕ}

/-- A colour in the lowest bit of a word. -/
def withLow (w : ℕ) (red : Bool) : ℕ := w ||| red.toNat

/-- The bits of a word with a colour: the colour below, the pointer above. -/
theorem testBit_withLow (hw : w.testBit 0 = false) (red : Bool) (i : ℕ) :
    (withLow w red).testBit i = if i = 0 then red else w.testBit i := by
  rw [withLow, Nat.testBit_or]
  cases i with
  | zero => cases red <;> simp [hw]
  | succ i => cases red <;> simp [Nat.testBit_succ]

/-- `meta & 1` reads the colour. -/
theorem withLow_and_one (hw : w.testBit 0 = false) (red : Bool) :
    withLow w red &&& 1 = red.toNat := by
  refine Nat.eq_of_testBit_eq fun i => ?_
  rw [Nat.testBit_and, testBit_withLow hw]
  cases i with
  | zero => cases red <;> simp
  | succ i => cases red <;> simp [Nat.testBit_succ]

/-- `meta | 1` sets the colour red. -/
theorem withLow_or_one (hw : w.testBit 0 = false) (red : Bool) :
    withLow w red ||| 1 = withLow w true := by
  refine Nat.eq_of_testBit_eq fun i => ?_
  rw [Nat.testBit_or, testBit_withLow hw, testBit_withLow hw]
  cases i with
  | zero => simp
  | succ i => simp [Nat.testBit_succ]

/-- `meta & ~1UL` takes the colour away, and leaves the pointer. -/
theorem clearLow_withLow (hw : w.testBit 0 = false) (red : Bool) :
    clearLow (withLow w red) = w := by
  refine Nat.eq_of_testBit_eq fun i => ?_
  rw [clearLow, Nat.testBit_shiftLeft, Nat.testBit_shiftRight, testBit_withLow (by simpa using hw)]
  cases i with
  | zero => simp [hw]
  | succ i => simp [Nat.add_comm 1 i]

theorem withLow_false (w : ℕ) : withLow w false = w := Nat.or_zero w

/-- Exchanging two colours by their difference. -/
theorem withLow_xor (hw : w.testBit 0 = false) (hv : v.testBit 0 = false) (r₁ r₂ : Bool) :
    withLow w r₁ ^^^ ((withLow w r₁ ^^^ withLow v r₂) &&& 1) = withLow w r₂ := by
  refine Nat.eq_of_testBit_eq fun i => ?_
  rw [Nat.testBit_xor, Nat.testBit_and, Nat.testBit_xor, testBit_withLow hw, testBit_withLow hw,
    testBit_withLow hv]
  cases i with
  | zero => cases r₁ <;> cases r₂ <;> simp
  | succ i => simp [Nat.testBit_succ]

end

/-! ### The packed memory -/

/-- The tree part of an `rb_node`, with the word `meta`. -/
structure PackedNode where
  word : ℕ
  left : Ptr
  right : Ptr
  fd : ℤ

/-- `RbMem`, with packed words. -/
structure PackedMem where
  node : Addr → Option PackedNode
  root : Ptr
  top : ℕ

/-- `node->meta = f(node->meta)`. -/
def PackedMem.modifyWord (m : PackedMem) (a : Addr) (f : ℕ → ℕ) : Option PackedMem :=
  (m.node a).map fun n =>
    { m with node := Function.update m.node a (some { n with word := f n.word }) }

/-- `*place = p`, and `node->child[d] = p`. -/
def PackedMem.store (m : PackedMem) (p : Ptr) : RbPlace → Option PackedMem
  | .root => some { m with root := p }
  | .child a .left => (m.node a).map fun n =>
      { m with node := Function.update m.node a (some { n with left := p }) }
  | .child a .right => (m.node a).map fun n =>
      { m with node := Function.update m.node a (some { n with right := p }) }

/-- The fields of a node, read from its word: `meta & 1UL` and `get_parent`. -/
def PackedNode.links (L : NodeLayout) (n : PackedNode) : RbLinks :=
  ⟨n.word &&& 1 ≠ 0, L.toPtr (clearLow n.word), n.left, n.right, n.fd⟩

/-- A node with its colour and its parent packed. -/
def RbLinks.pack (L : NodeLayout) (n : RbLinks) : PackedNode :=
  ⟨withLow (L.ofPtr n.parent) n.red, n.left, n.right, n.fd⟩

/-- A memory with its words packed. -/
def RbMem.pack (L : NodeLayout) (m : RbMem) : PackedMem :=
  ⟨fun a => (m.node a).map (·.pack L), m.root, m.top⟩

/-! ### The operations -/

/-- **What `rbtree.c` does to the nodes**: it reads a node or a slot, and writes a slot, a colour
or a parent. `top` is the bound of the model on its loops. -/
inductive RbCmd : Type → Type
  | top : RbCmd ℕ
  | node (a : Addr) : RbCmd RbLinks
  | isRed (p : Ptr) : RbCmd Bool
  | load (place : RbPlace) : RbCmd Ptr
  | store (p : Ptr) (place : RbPlace) : RbCmd Unit
  | setRed (a : Addr) (red : Bool) : RbCmd Unit
  | setParent (a : Addr) (p : Ptr) : RbCmd Unit
  | swapColors (a b : Addr) : RbCmd Unit

/-- The operations on a memory with fields. -/
def splitMem : Memory RbCmd RbMem := fun _ c m =>
  match c with
  | .top => some (m.top, m)
  | .node a => (m.node a).map fun n => (n, m)
  | .isRed p => (m.isRed p).map fun red => (red, m)
  | .load place => (m.load place).map fun p => (p, m)
  | .store p place => (m.store p place).map fun m => ((), m)
  | .setRed a red => (m.setRed a red).map fun m => ((), m)
  | .setParent a p => (m.setParent a p).map fun m => ((), m)
  | .swapColors a b => (m.swapColors a b).map fun m => ((), m)

/-- **The operations on packed words**, as `rbtree.c` has them. -/
def packedMem (L : NodeLayout) : Memory RbCmd PackedMem := fun _ c m =>
  match c with
  | .top => some (m.top, m)
  | .node a => (m.node a).map fun n => (n.links L, m)
  | .isRed none => some (false, m)
  | .isRed (some a) => (m.node a).map fun n => (n.word &&& 1 ≠ 0, m)
  | .load .root => some (m.root, m)
  | .load (.child a d) => (m.node a).map fun n => ((n.links L).child d, m)
  | .store p place => (m.store p place).map fun m => ((), m)
  | .setRed a true => (m.modifyWord a (· ||| 1)).map fun m => ((), m)
  | .setRed a false => (m.modifyWord a clearLow).map fun m => ((), m)
  | .setParent a p => (m.modifyWord a fun w => (w &&& 1) ||| L.ofPtr p).map fun m => ((), m)
  | .swapColors a b => do
      let x ← m.node a
      let y ← m.node b
      let diffColors := (x.word ^^^ y.word) &&& 1
      let m ← m.modifyWord a (· ^^^ diffColors)
      let m ← m.modifyWord b (· ^^^ diffColors)
      some ((), m)

/-! ### The representation -/

section

variable (L : NodeLayout)

/-- The fields are read back from the packed word. -/
@[simp] theorem links_pack (n : RbLinks) : (n.pack L).links L = n := by
  have hlow := L.testBit_ofPtr n.parent
  rw [PackedNode.links, RbLinks.pack, withLow_and_one hlow, clearLow_withLow hlow, L.toPtr_ofPtr]
  cases n with
  | mk red parent left right fd => cases red <;> rfl

/-- A node of the packed memory is the packed node. -/
theorem node_pack (m : RbMem) (a : Addr) : (m.pack L).node a = (m.node a).map (·.pack L) := rfl

/-- Writing a packed node is packing after the node is written. -/
theorem pack_update (m : RbMem) (a : Addr) (n : RbLinks) :
    ({ m with node := Function.update m.node a (some n) } : RbMem).pack L =
      { m.pack L with node := Function.update (m.pack L).node a (some (n.pack L)) } := by
  simp only [RbMem.pack, PackedMem.mk.injEq, and_true]
  exact Function.comp_update (Option.map (·.pack L)) m.node a (some n)

/-- Writing to the word of a node writes to the fields that are packed in it. -/
theorem modifyWord_pack (m : RbMem) (a : Addr) {g : ℕ → ℕ} {f : RbLinks → RbLinks}
    (h : ∀ n, m.node a = some n → f n = { n with red := (f n).red, parent := (f n).parent } ∧
      g (n.pack L).word = ((f n).pack L).word) :
    (m.pack L).modifyWord a g = (m.modify a f).map (RbMem.pack L) := by
  rw [PackedMem.modifyWord, RbMem.modify, node_pack, Option.map_map, Option.map_map]
  cases hn : m.node a with
  | none => rfl
  | some n =>
      obtain ⟨hf, hg⟩ := h n hn
      simp only [Option.map_some, Function.comp_apply, pack_update, Option.some.injEq,
        PackedMem.mk.injEq, and_true]
      rw [hg, hf]
      rfl

/-- Storing a pointer at a place does not depend on the packing. -/
theorem store_pack (m : RbMem) (p : Ptr) (place : RbPlace) :
    (m.pack L).store p place = (m.store p place).map (RbMem.pack L) := by
  rcases place with _ | ⟨a, d⟩
  · rfl
  · have hset := fun n : RbLinks => (pack_update L m a (n.setChild d p)).symm
    cases d
    all_goals
      simp only [PackedMem.store, RbMem.store, RbMem.modify, node_pack, Option.map_map]
      exact congrFun (congrArg _ (funext hset)) _

/-- `swap_colors` exchanges the colours by their difference, also of a node with itself. -/
theorem swapColors_pack (m : RbMem) (a b : Addr) :
    packedMem L _ (.swapColors a b) (m.pack L) =
      (splitMem _ (.swapColors a b) m).map fun r => (r.1, r.2.pack L) := by
  simp only [packedMem, splitMem, RbMem.swapColors, node_pack]
  cases hx : m.node a with
  | none => rfl
  | some x =>
      cases hy : m.node b with
      | none => rfl
      | some y =>
          have hlx := L.testBit_ofPtr x.parent
          have hly := L.testBit_ofPtr y.parent
          obtain ⟨m₁, hm₁⟩ : ∃ m₁, m.setRed a y.red = some m₁ :=
            ⟨_, by rw [RbMem.setRed, RbMem.modify, hx]; rfl⟩
          have hb : m₁.node b = some y := by
            rw [RbMem.setRed, RbMem.modify, hx] at hm₁
            obtain rfl := Option.some.inj hm₁
            by_cases hab : b = a
            · obtain rfl : x = y := Option.some.inj (hx.symm.trans (hab ▸ hy))
              simp [hab]
            · simpa [Function.update_of_ne hab] using hy
          have hfst := modifyWord_pack L m a (f := fun n => { n with red := y.red })
            (g := (· ^^^ (((x.pack L).word ^^^ (y.pack L).word) &&& 1))) fun n hn => by
              obtain rfl : x = n := Option.some.inj (hx.symm.trans hn)
              exact ⟨rfl, withLow_xor hlx hly x.red y.red⟩
          have hsnd := modifyWord_pack L m₁ b (f := fun n => { n with red := x.red })
            (g := (· ^^^ (((x.pack L).word ^^^ (y.pack L).word) &&& 1))) fun n hn => by
              obtain rfl : y = n := Option.some.inj (hb.symm.trans hn)
              refine ⟨rfl, ?_⟩
              rw [Nat.xor_comm (x.pack L).word]
              exact withLow_xor hly hlx y.red x.red
          change _ = (m.setRed a y.red).map _ at hfst
          change _ = (m₁.setRed b x.red).map _ at hsnd
          rw [hm₁] at hfst
          simp only [Option.map_some, bind, Option.bind_some, hfst, hsnd, hm₁]
          cases m₁.setRed b x.red <;> rfl

/-- **Each operation on packed words** does what the one on fields does. -/
theorem represents_pack : Represents splitMem (packedMem L) (RbMem.pack L) := by
  intro β c m
  cases c with
  | top => rfl
  | node a =>
      simp only [packedMem, splitMem, node_pack, Option.map_map]
      exact congrFun (congrArg _ (funext fun n => by simp)) _
  | isRed p =>
      cases p with
      | none => rfl
      | some a =>
          simp only [packedMem, splitMem, RbMem.isRed, node_pack, Option.map_map]
          refine congrFun (congrArg _ (funext fun n => ?_)) _
          exact congrArg (fun links : RbLinks => (links.red, m.pack L)) (links_pack L n)
  | load place =>
      rcases place with _ | ⟨a, d⟩
      · rfl
      · simp only [packedMem, splitMem, RbMem.load, node_pack, Option.map_map]
        exact congrFun (congrArg _ (funext fun n => by simp)) _
  | store p place =>
      simp only [packedMem, splitMem, store_pack, Option.map_map]
      rfl
  | setRed a red =>
      have hset : ∀ g, (∀ n : RbLinks, g (n.pack L).word = withLow (L.ofPtr n.parent) red) →
          (m.pack L).modifyWord a g = (m.setRed a red).map (RbMem.pack L) := fun g hg =>
        modifyWord_pack L m a fun n _ => ⟨rfl, hg n⟩
      cases red with
      | true =>
          simp only [packedMem, splitMem]
          rw [hset _ fun n => withLow_or_one (L.testBit_ofPtr _) n.red, Option.map_map,
            Option.map_map]
          rfl
      | false =>
          simp only [packedMem, splitMem]
          rw [hset _ fun n => by
            rw [withLow_false]
            exact clearLow_withLow (L.testBit_ofPtr _) n.red, Option.map_map, Option.map_map]
          rfl
  | setParent a p =>
      simp only [packedMem, splitMem, RbMem.setParent]
      rw [modifyWord_pack L m a (f := fun n => { n with parent := p }) fun n _ => ⟨rfl, ?_⟩,
        Option.map_map, Option.map_map]
      · rfl
      · show (withLow _ n.red &&& 1) ||| L.ofPtr p = withLow (L.ofPtr p) n.red
        rw [withLow_and_one (L.testBit_ofPtr _), Nat.or_comm, withLow]
  | swapColors a b => exact swapColors_pack L m a b

end

/-! ### The functions as programs -/

/-- A program over the operations of `rbtree.c`. -/
abbrev RbProg (α : Type) : Type 1 := Prog RbCmd α

namespace RbProg

open Prog

/-- `if (p) set_parent(p, parent)`. -/
def setParentIf (p parent : Ptr) : RbProg Unit :=
  match p with
  | none => pure ()
  | some a => perform (.setParent a parent)

/-- The slot of a node with the given parent. -/
def linkTo (parent : Ptr) (a : Addr) : RbProg RbPlace :=
  match parent with
  | none => pure .root
  | some p => do
      let n ← perform (.node p)
      pure (.child p (if n.right = some a then .right else .left))

/-- `rb_rotate`. -/
def rbRotate (a : Addr) (dir : Dir) : RbProg Unit := do
  let n ← perform (.node a)
  let pLink ← linkTo n.parent a
  let b ← ofOption (n.child dir.opp)
  let c ← perform (.node b)
  let grandchild := c.child dir
  perform (.setParent b n.parent)
  perform (.store (some b) pLink)
  perform (.store grandchild (.child a dir.opp))
  setParentIf grandchild (some a)
  perform (.store (some a) (.child b dir))
  perform (.setParent a (some b))

/-- `rb_ref_to_this`. -/
def rbRefToThis (a : Addr) : RbProg (RbPlace × Ptr) := do
  let n ← perform (.node a)
  match n.parent with
  | none => pure (.root, none)
  | some p => do
      let pn ← perform (.node p)
      pure (.child p (if pn.right = some a then .right else .left), some p)

/-- The loop of `rb_probe`. -/
def rbProbeLoop (fd : ℤ) : ℕ → RbPlace → Ptr → RbProg (RbPlace × Ptr)
  | 0, _, _ => .fail
  | fuel + 1, place, parent => do
      match ← perform (.load place) with
      | none => pure (place, parent)
      | some a => do
          let n ← perform (.node a)
          if n.fd = fd then pure (place, parent)
          else rbProbeLoop fd fuel (.child a (if n.fd < fd then .right else .left)) (some a)

/-- `rb_probe`. -/
def rbProbe (place : RbPlace) (fd : ℤ) : RbProg (RbPlace × Ptr) := do
  let top ← perform .top
  rbProbeLoop fd (top + 1) place none

/-- The loop of `predecessor`. -/
def predecessorLoop : ℕ → RbPlace → RbProg RbPlace
  | 0, _ => .fail
  | fuel + 1, pred => do
      let a ← ofOption (← perform (.load pred))
      let n ← perform (.node a)
      if n.right.isSome then predecessorLoop fuel (.child a .right) else pure pred

/-- `predecessor`. -/
def predecessor (a : Addr) : RbProg RbPlace := do
  predecessorLoop ((← perform .top) + 1) (.child a .left)

/-- The loop of `fix_insert`. -/
def fixInsertLoop : ℕ → Addr → Ptr → RbProg Unit
  | 0, _, _ => .fail
  | fuel + 1, node, parent => do
      if ← perform (.isRed parent) then
        let p ← ofOption parent
        let pn ← perform (.node p)
        match pn.parent with
        | none => pure ()
        | some g => do
            let gn ← perform (.node g)
            let parentDir := if gn.right = some p then Dir.right else Dir.left
            let uncle := gn.child parentDir.opp
            if ← perform (.isRed uncle) then
              let u ← ofOption uncle
              perform (.setRed u false)
              perform (.setRed p false)
              perform (.setRed g true)
              let gn ← perform (.node g)
              fixInsertLoop fuel g gn.parent
            else
              let nodeDir := if pn.right = some node then Dir.right else Dir.left
              if parentDir ≠ nodeDir then
                rbRotate p parentDir
                rbRotate g parentDir.opp
                perform (.setRed g true)
                perform (.setRed node false)
              else
                rbRotate g parentDir.opp
                perform (.setRed g true)
                perform (.setRed p false)
      else pure ()

/-- `rb_insert`, with `fix_insert`. -/
def rbInsert (node : Addr) (place : RbPlace) (parent : Ptr) : RbProg Unit := do
  perform (.store (some node) place)
  perform (.setParent node parent)
  if ← perform (.isRed parent) then
    fixInsertLoop ((← perform .top) + 1) node parent
  perform (.setRed (← ofOption (← perform (.load .root))) false)

/-- The `NEAR` case of `fix_delete`. -/
def nearToFar (p s : Addr) (dirToDb : Dir) : RbProg Addr := do
  let sn ← perform (.node s)
  perform (.setRed (← ofOption (sn.child dirToDb)) false)
  perform (.setRed s true)
  rbRotate s dirToDb.opp
  let pn ← perform (.node p)
  ofOption (pn.child dirToDb.opp)

/-- The end of `fix_delete` when the far child of the sibling is red. -/
def closeDelete (p s : Addr) (dirToDb : Dir) : RbProg Unit := do
  let sn ← perform (.node s)
  perform (.setRed (← ofOption (sn.child dirToDb.opp)) false)
  perform (.swapColors p s)
  rbRotate p dirToDb

/-- `if (db) set_black(db);`. -/
def blackenDb : Ptr → RbProg Unit
  | none => pure ()
  | some a => perform (.setRed a false)

/-- The loop of `fix_delete`. -/
def fixDeleteLoop : ℕ → Ptr → Ptr → RbProg Unit
  | 0, _, _ => .fail
  | fuel + 1, db, parent => do
      if ← perform (.isRed db) then blackenDb db
      else
        match parent with
        | none => blackenDb db
        | some p => do
            let pn ← perform (.node p)
            let dirToDb := if pn.right = db then Dir.right else Dir.left
            let sibling := pn.child dirToDb.opp
            if ← perform (.isRed sibling) then
              let s ← ofOption sibling
              perform (.setRed p true)
              perform (.setRed s false)
              rbRotate p dirToDb
              fixDeleteLoop fuel db parent
            else
              let s ← ofOption sibling
              let sn ← perform (.node s)
              if ← perform (.isRed (sn.child dirToDb.opp)) then closeDelete p s dirToDb
              else if ← perform (.isRed (sn.child dirToDb)) then
                let s ← nearToFar p s dirToDb
                closeDelete p s dirToDb
              else
                perform (.setRed s true)
                let pn ← perform (.node p)
                fixDeleteLoop fuel (some p) pn.parent

/-- A node trades places with its left child. -/
def swapAdjacent (place : RbPlace) (parent : Ptr) (pred curr : Addr) : RbProg Unit := do
  perform (.store (some pred) place)
  perform (.setParent pred parent)
  perform (.setParent curr (some pred))
  let pn ← perform (.node pred)
  perform (.store (some curr) (.child pred .left))
  perform (.store pn.left (.child curr .left))
  setParentIf pn.left (some curr)

/-- A node trades places with its predecessor, which is not its child. -/
def swapApart (place : RbPlace) (parent : Ptr) (predLoc : RbPlace) (pred curr : Addr) :
    RbProg Unit := do
  let pn ← perform (.node pred)
  perform (.setParent curr pn.parent)
  perform (.setParent pred parent)
  perform (.store (some pred) place)
  perform (.store (some curr) predLoc)
  let cn ← perform (.node curr)
  let pn ← perform (.node pred)
  perform (.store pn.left (.child curr .left))
  perform (.store cn.left (.child pred .left))
  setParentIf pn.left (some curr)
  let tmp ← ofOption cn.left
  perform (.setParent tmp (some pred))

/-- The right child of `curr` moves to `pred`. -/
def moveRight (pred curr : Addr) : RbProg Unit := do
  let cn ← perform (.node curr)
  perform (.store none (.child curr .right))
  perform (.store cn.right (.child pred .right))
  setParentIf cn.right (some pred)

/-- The first half of `rb_extract`, for a node with two children. -/
def swapWithPredecessor (place : RbPlace) (parent : Ptr) (curr : Addr) (fd : ℤ) :
    RbProg (RbPlace × Ptr) := do
  let predLoc ← predecessor curr
  let pred ← ofOption (← perform (.load predLoc))
  perform (.swapColors pred curr)
  let cn ← perform (.node curr)
  if cn.left = some pred then swapAdjacent place parent pred curr
  else swapApart place parent predLoc pred curr
  moveRight pred curr
  rbProbe (.child pred .left) fd

/-- The second half of `rb_extract`. -/
def unlink (place : RbPlace) (parent : Ptr) (curr : Addr) : RbProg Unit := do
  let cn ← perform (.node curr)
  let son := if cn.left.isSome then cn.left else cn.right
  perform (.store son place)
  setParentIf son parent
  if cn.red then pure () else fixDeleteLoop (2 * (← perform .top) + 2) son parent

/-- `rb_extract`. -/
def rbExtract (place : RbPlace) (parent : Ptr) : RbProg Addr := do
  let curr ← ofOption (← perform (.load place))
  let cn ← perform (.node curr)
  let r ← if cn.left.isSome ∧ cn.right.isSome then swapWithPredecessor place parent curr cn.fd
    else pure (place, parent)
  unlink r.1 r.2 curr
  pure curr

end RbProg

section

open RbProg

/-- Setting the parent of a node that may be missing is the program. -/
theorem run_setParentIf (p parent : Ptr) (m : RbMem) :
    (RbProg.setParentIf p parent).run splitMem m =
      (m.setParentIf p parent).map fun m => ((), m) := by
  cases p with
  | none => rfl
  | some a => exact run_perform splitMem (.setParent a parent) m

/-- Finding the reference to a node from its parent is the program. -/
theorem run_linkTo (parent : Ptr) (a : Addr) (m : RbMem) :
    (RbProg.linkTo parent a).run splitMem m = (m.linkTo parent a).map fun place => (place, m) := by
  cases parent with
  | none => rfl
  | some p =>
      simp only [RbProg.linkTo, RbMem.linkTo, run_bind, run_perform, splitMem, run_pure,
        Option.map_map, Option.bind_map]
      cases m.node p <;> rfl

/-- **A rotation** is the program. -/
theorem run_rbRotate (a : Addr) (dir : Dir) (m : RbMem) :
    (RbProg.rbRotate a dir).run splitMem m = (m.rbRotate a dir).map fun m => ((), m) := by
  simp only [RbProg.rbRotate, RbMem.rbRotate, RbMem.setChild, run_bind, run_perform, run_ofOption,
    run_linkTo, run_setParentIf, splitMem, Option.bind_eq_bind, Option.bind_map, Option.map_bind,
    Function.comp_def]
  rfl

/-- **`rb_ref_to_this`** is the program. -/
theorem run_rbRefToThis (a : Addr) (m : RbMem) :
    (RbProg.rbRefToThis a).run splitMem m = (m.rbRefToThis a).map fun r => (r, m) := by
  simp only [RbProg.rbRefToThis, RbMem.rbRefToThis, run_bind, run_perform, splitMem,
    Option.bind_eq_bind, Option.bind_map, Option.map_bind, Function.comp_def]
  refine congrArg _ (funext fun n => ?_)
  cases n.parent with
  | none => rfl
  | some p =>
      simp only [run_bind, run_perform, splitMem, Option.bind_map, Option.map_bind,
        Function.comp_def]
      rfl

/-- The loop of `rb_probe` is the program, by induction on the fuel. -/
theorem run_rbProbeLoop (fd : ℤ) (fuel : ℕ) (place : RbPlace) (parent : Ptr) (m : RbMem) :
    (RbProg.rbProbeLoop fd fuel place parent).run splitMem m =
      (m.rbProbeLoop fd fuel place parent).map fun r => (r, m) := by
  induction fuel generalizing place parent with
  | zero => rfl
  | succ fuel ih =>
      simp only [RbProg.rbProbeLoop, RbMem.rbProbeLoop, run_bind, run_perform, splitMem,
        Option.bind_eq_bind, Option.bind_map, Option.map_bind, Function.comp_def]
      refine congrArg _ (funext fun p => ?_)
      cases p with
      | none => rfl
      | some a =>
          simp only [run_bind, run_perform, splitMem, Option.bind_map, Option.map_bind,
            Function.comp_def, run_ite, ih, run_pure, apply_ite (Option.map _), Option.map_some]

/-- **`rb_probe`** is the program. -/
theorem run_rbProbe (place : RbPlace) (fd : ℤ) (m : RbMem) :
    (RbProg.rbProbe place fd).run splitMem m = (m.rbProbe place fd).map fun r => (r, m) := by
  simp only [RbProg.rbProbe, RbMem.rbProbe, run_bind, run_perform, splitMem, Option.bind_some,
    run_rbProbeLoop]

/-- The loop to the rightmost node is the program, by induction on the fuel. -/
theorem run_predecessorLoop (fuel : ℕ) (pred : RbPlace) (m : RbMem) :
    (RbProg.predecessorLoop fuel pred).run splitMem m =
      (m.predecessorLoop fuel pred).map fun place => (place, m) := by
  induction fuel generalizing pred with
  | zero => rfl
  | succ fuel ih =>
      simp only [RbProg.predecessorLoop, RbMem.predecessorLoop, run_bind, run_perform,
        run_ofOption, splitMem, Option.bind_eq_bind, Option.bind_map, Option.map_bind,
        Function.comp_def, run_ite, ih, run_pure, apply_ite (Option.map _), Option.map_some]

/-- The search for the predecessor is the program. -/
theorem run_predecessor (a : Addr) (m : RbMem) :
    (RbProg.predecessor a).run splitMem m = (m.predecessor a).map fun place => (place, m) := by
  simp only [RbProg.predecessor, RbMem.predecessor, run_bind, run_perform, splitMem,
    Option.bind_some, run_predecessorLoop]

/-- The repair after an insertion is the program, by induction on the fuel. -/
theorem run_fixInsertLoop (fuel : ℕ) (node : Addr) (parent : Ptr) (m : RbMem) :
    (RbProg.fixInsertLoop fuel node parent).run splitMem m =
      (RbMem.fixInsertLoop fuel m node parent).map fun m => ((), m) := by
  induction fuel generalizing node parent m with
  | zero => rfl
  | succ fuel ih =>
      simp only [RbProg.fixInsertLoop, RbMem.fixInsertLoop, run_bind, run_perform, splitMem,
        Option.bind_eq_bind, Option.bind_map, Option.map_bind, Function.comp_def]
      refine congrArg _ (funext fun red => ?_)
      cases red with
      | false => rfl
      | true =>
          simp only [if_true, run_bind, run_perform, run_ofOption, splitMem, Option.bind_map,
            Option.map_bind, Function.comp_def]
          refine congrArg _ (funext fun p => congrArg _ (funext fun pn => ?_))
          cases pn.parent with
          | none => rfl
          | some g =>
              simp only [run_bind, run_perform, run_ofOption, run_rbRotate, splitMem, ih, run_ite,
                Option.bind_map, Option.map_bind, Function.comp_def, apply_ite (Option.map _)]

/-- **`rb_insert`** is the program. -/
theorem run_rbInsert (node : Addr) (place : RbPlace) (parent : Ptr) (m : RbMem) :
    (RbProg.rbInsert node place parent).run splitMem m =
      (m.rbInsert node place parent).map fun m => ((), m) := by
  simp only [RbProg.rbInsert, RbMem.rbInsert, RbMem.fixInsert, run_bind, run_perform, run_ite,
    run_ofOption, run_fixInsertLoop, splitMem, Option.bind_eq_bind, Option.bind_map,
    Option.map_bind, Function.comp_def, Option.bind_some]
  refine congrArg _ (funext fun m => congrArg _ (funext fun m => congrArg _ (funext fun red => ?_)))
  cases red <;> simp [RbMem.load]

/-- The rotation of the near nephew is the program. -/
theorem run_nearToFar (p s : Addr) (dirToDb : Dir) (m : RbMem) :
    (RbProg.nearToFar p s dirToDb).run splitMem m =
      (m.nearToFar p s dirToDb).map fun r => (r.2, r.1) := by
  simp only [RbProg.nearToFar, RbMem.nearToFar, run_bind, run_perform, run_ofOption, run_rbRotate,
    splitMem, Option.bind_eq_bind, Option.bind_map, Option.map_bind, Function.comp_def]
  simp only [Option.map_eq_bind, Function.comp_def, Option.bind_some]

/-- The last rotation of a removal is the program. -/
theorem run_closeDelete (p s : Addr) (dirToDb : Dir) (m : RbMem) :
    (RbProg.closeDelete p s dirToDb).run splitMem m =
      (m.closeDelete p s dirToDb).map fun m => ((), m) := by
  simp only [RbProg.closeDelete, RbMem.closeDelete, run_bind, run_perform, run_ofOption,
    run_rbRotate, splitMem, Option.bind_eq_bind, Option.bind_map, Option.map_bind,
    Function.comp_def]

/-- Blackening the doubly black node is the program. -/
theorem run_blackenDb (db : Ptr) (m : RbMem) :
    (RbProg.blackenDb db).run splitMem m = (m.blackenDb db).map fun m => ((), m) := by
  cases db with
  | none => rfl
  | some a => exact run_perform splitMem (.setRed a false) m

/-- The repair after a removal is the program, by induction on the fuel. -/
theorem run_fixDeleteLoop (fuel : ℕ) (db parent : Ptr) (m : RbMem) :
    (RbProg.fixDeleteLoop fuel db parent).run splitMem m =
      (RbMem.fixDeleteLoop fuel m db parent).map fun m => ((), m) := by
  induction fuel generalizing db parent m with
  | zero => rfl
  | succ fuel ih =>
      simp only [RbProg.fixDeleteLoop, RbMem.fixDeleteLoop, run_bind, run_perform, splitMem,
        Option.bind_eq_bind, Option.bind_map, Option.map_bind, Function.comp_def]
      refine congrArg _ (funext fun red => ?_)
      cases red with
      | true => exact run_blackenDb db m
      | false =>
          cases parent with
          | none => exact run_blackenDb db m
          | some p =>
              simp only [Bool.false_eq_true, if_false, run_bind, run_perform, run_ofOption,
                run_rbRotate, run_closeDelete, run_nearToFar, splitMem, ih, run_ite,
                Option.bind_map, Option.map_bind, Function.comp_def, apply_ite (Option.map _)]

/-- The exchange with a predecessor that is a child is the program. -/
theorem run_swapAdjacent (place : RbPlace) (parent : Ptr) (pred curr : Addr) (m : RbMem) :
    (RbProg.swapAdjacent place parent pred curr).run splitMem m =
      (m.swapAdjacent place parent pred curr).map fun m => ((), m) := by
  simp only [RbProg.swapAdjacent, RbMem.swapAdjacent, RbMem.setChild, run_bind, run_perform,
    run_setParentIf, splitMem, Option.bind_eq_bind, Option.bind_map, Option.map_bind,
    Function.comp_def]
  rfl

/-- The exchange with a predecessor further below is the program. -/
theorem run_swapApart (place : RbPlace) (parent : Ptr) (predLoc : RbPlace) (pred curr : Addr)
    (m : RbMem) :
    (RbProg.swapApart place parent predLoc pred curr).run splitMem m =
      (m.swapApart place parent predLoc pred curr).map fun m => ((), m) := by
  simp only [RbProg.swapApart, RbMem.swapApart, RbMem.setChild, run_bind, run_perform,
    run_ofOption, run_setParentIf, splitMem, Option.bind_eq_bind, Option.bind_map,
    Option.map_bind, Function.comp_def]
  rfl

/-- Handing over the right child is the program. -/
theorem run_moveRight (pred curr : Addr) (m : RbMem) :
    (RbProg.moveRight pred curr).run splitMem m =
      (m.moveRight pred curr).map fun m => ((), m) := by
  simp only [RbProg.moveRight, RbMem.moveRight, RbMem.setChild, run_bind, run_perform,
    run_setParentIf, splitMem, Option.bind_eq_bind, Option.bind_map, Option.map_bind,
    Function.comp_def]
  rfl

/-- The exchange with the predecessor is the program. -/
theorem run_swapWithPredecessor (place : RbPlace) (parent : Ptr) (curr : Addr) (fd : ℤ)
    (m : RbMem) :
    (RbProg.swapWithPredecessor place parent curr fd).run splitMem m =
      (m.swapWithPredecessor place parent curr fd).map fun r => (r.2, r.1) := by
  simp only [RbProg.swapWithPredecessor, RbMem.swapWithPredecessor, run_bind, run_perform, run_ite,
    run_ofOption, run_predecessor, run_swapAdjacent, run_swapApart, run_moveRight, run_rbProbe,
    splitMem, Option.bind_eq_bind, Option.bind_map, Option.map_bind, Function.comp_def]
  refine congrArg _ (funext fun predLoc => congrArg _ (funext fun slot => congrArg _ (funext fun
    pred => congrArg _ (funext fun m => congrArg _ (funext fun cn => ?_)))))
  simp only [Option.map_eq_bind, Function.comp_def, Option.bind_some]
  split <;> rfl

/-- Unlinking a node is the program. -/
theorem run_unlink (place : RbPlace) (parent : Ptr) (curr : Addr) (m : RbMem) :
    (RbProg.unlink place parent curr).run splitMem m =
      (m.unlink place parent curr).map fun m => ((), m) := by
  simp only [RbProg.unlink, RbMem.unlink, RbMem.fixDelete, run_bind, run_perform, run_ite,
    run_setParentIf, run_fixDeleteLoop, splitMem, Option.bind_eq_bind, Option.bind_map,
    Option.map_bind, Function.comp_def, Option.bind_some, run_pure, apply_ite (Option.map _)]
  rfl

/-- **`rb_extract`** is the program. -/
theorem run_rbExtract (place : RbPlace) (parent : Ptr) (m : RbMem) :
    (RbProg.rbExtract place parent).run splitMem m = m.rbExtract place parent := by
  simp only [RbProg.rbExtract, RbMem.rbExtract, run_bind, run_perform, run_ite, run_ofOption,
    run_swapWithPredecessor, run_unlink, splitMem, Option.bind_eq_bind, Option.bind_map,
    Function.comp_def, run_pure]
  refine congrArg _ (funext fun p => congrArg _ (funext fun curr => congrArg _ ?_))
  funext cn
  split <;> simp

end

section

variable (L : NodeLayout) (m : RbMem)

/-- `rb_ref_to_this` on packed words finds the same reference. -/
theorem pack_rbRefToThis (a : Addr) : (RbProg.rbRefToThis a).run (packedMem L) (m.pack L) =
    (m.rbRefToThis a).map fun r => (r, m.pack L) := by
  rw [(represents_pack L).run, run_rbRefToThis, Option.map_map]
  rfl

/-- `rb_probe` on packed words finds the same place and parent. -/
theorem pack_rbProbe (place : RbPlace) (fd : ℤ) :
    (RbProg.rbProbe place fd).run (packedMem L) (m.pack L) =
      (m.rbProbe place fd).map fun r => (r, m.pack L) := by
  rw [(represents_pack L).run, run_rbProbe, Option.map_map]
  rfl

/-- `rb_insert` on packed words gives the packed tree. -/
theorem pack_rbInsert (a : Addr) (place : RbPlace) (parent : Ptr) :
    (RbProg.rbInsert a place parent).run (packedMem L) (m.pack L) =
      (m.rbInsert a place parent).map fun m' => ((), m'.pack L) := by
  rw [(represents_pack L).run, run_rbInsert, Option.map_map]
  rfl

/-- `rb_extract` on packed words gives the same node and the packed tree. -/
theorem pack_rbExtract (place : RbPlace) (parent : Ptr) :
    (RbProg.rbExtract place parent).run (packedMem L) (m.pack L) =
      (m.rbExtract place parent).map fun r => (r.1, r.2.pack L) := by
  rw [(represents_pack L).run, run_rbExtract]

end

/-! ### The tree of a service -/

/-- A tree with packed words, for a service. -/
structure PackedTree (L : NodeLayout) where
  mem : PackedMem

/-- A tree with its words packed. -/
def RbMem.packTree (L : NodeLayout) (m : RbMem) : PackedTree L := ⟨m.pack L⟩

/-- `make_rbnode`: `meta` is `1UL`, no parent and red. -/
def PackedMem.makeRbnode (m : PackedMem) (a : Addr) (fd : ℤ) : PackedMem :=
  { m with
    node := Function.update m.node a (some { word := 1, left := none, right := none, fd := fd })
    top := max m.top (a + 1) }

/-- The memory with fields. -/
def PackedMem.unpack (L : NodeLayout) (m : PackedMem) : RbMem :=
  ⟨fun a => (m.node a).map (·.links L), m.root, m.top⟩

section

variable {L : NodeLayout}

/-- A memory is found again from its packed form. -/
@[simp] theorem unpack_pack (m : RbMem) : (m.pack L).unpack L = m := by
  cases m with
  | mk node root top =>
      simp only [PackedMem.unpack, RbMem.pack, Option.map_map, RbMem.mk.injEq, and_true]
      exact funext fun a => (congrFun (congrArg _ (funext (links_pack L))) _).trans Option.map_id'

/-- Trees that are packed alike are alike. -/
theorem packTree_injective : Function.Injective (RbMem.packTree L) :=
  Function.LeftInverse.injective (g := fun t : PackedTree L => t.mem.unpack L) unpack_pack

instance : FdTree (PackedTree L) (RbPlace × Ptr) where
  empty := ⟨⟨fun _ => none, none, 0⟩⟩
  rbProbe t fd := ((RbProg.rbProbe .root fd).run (packedMem L) t.mem).map Prod.fst
  load t p := (packedMem L _ (.load p.1) t.mem).map Prod.fst
  store t p a := (packedMem L _ (.store (some a) p.1) t.mem).map fun r => ⟨r.2⟩
  makeRbnode t a fd := ⟨t.mem.makeRbnode a fd⟩
  free t a := ⟨{ t.mem with node := Function.update t.mem.node a none }⟩
  rbInsert t a p := ((RbProg.rbInsert a p.1 p.2).run (packedMem L) t.mem).map fun r => ⟨r.2⟩
  rbExtract t p := ((RbProg.rbExtract p.1 p.2).run (packedMem L) t.mem).map fun r => (r.1, ⟨r.2⟩)
  rbRefToThis t a := ((RbProg.rbRefToThis a).run (packedMem L) t.mem).map Prod.fst
  fdOf t a := (t.mem.node a).map PackedNode.fd
  insertOk t fd := !(t.mem.unpack L).mixedInsert fd
  extractOk t fd := !(t.mem.unpack L).adjacentBlackPred fd

end

namespace FdTree

variable {τ τ' π : Type} [FdTree τ π] [FdTree τ' π]

/-- **One tree in the form of another**: `f` carries over every operation of the interface. -/
structure Embeds (f : τ → τ') : Prop where
  injective : Function.Injective f
  empty : f empty = empty
  rbProbe : ∀ t fd, rbProbe (f t) fd = rbProbe t fd
  load : ∀ t p, load (f t) p = load t p
  store : ∀ t p a, store (f t) p a = (store t p a).map f
  makeRbnode : ∀ t a fd, makeRbnode (f t) a fd = f (makeRbnode t a fd)
  free : ∀ t a, free (f t) a = f (free t a)
  rbInsert : ∀ t a p, rbInsert (f t) a p = (rbInsert t a p).map f
  rbExtract : ∀ t p, rbExtract (f t) p = (rbExtract t p).map fun r => (r.1, f r.2)
  rbRefToThis : ∀ t a, rbRefToThis (f t) a = rbRefToThis t a
  fdOf : ∀ t a, fdOf (f t) a = fdOf t a
  insertOk : ∀ t fd, insertOk (f t) fd = insertOk t fd
  extractOk : ∀ t fd, extractOk (f t) fd = extractOk t fd

variable {f : τ → τ'}

/-- An embedding keeps what is found under a descriptor. -/
theorem Embeds.lookup (h : Embeds f) (t : τ) : FdTree.lookup (f t) = FdTree.lookup t := by
  funext fd
  simp only [FdTree.lookup, h.rbProbe, h.load]

/-- The laws of the interface are carried over, but for the three about trees that are not in order:
those are for any tree of the new form. -/
@[reducible] def Embeds.lawful [LawfulFdTree τ π] (h : Embeds f)
    (hwf : ∀ {t : τ'} {fd : ℤ} {p : π}, FdTree.rbProbe t fd = some p → LawfulFdTree.WfPlace τ p)
    (hsame : ∀ {t : τ'} {p : π} {a : Addr}, FdTree.load t p = some (some a) →
      FdTree.store t p a = some t)
    (hload : ∀ {t t' : τ'} {p : π} {a : Addr}, FdTree.store t p a = some t' →
      FdTree.load t' p = some (some a)) : LawfulFdTree τ' π where
  Valid t' := ∃ t, LawfulFdTree.Valid t ∧ f t = t'
  WfPlace := LawfulFdTree.WfPlace τ
  valid_empty := ⟨_, LawfulFdTree.valid_empty, h.empty⟩
  lookup_empty fd := by
    rw [← h.empty, h.lookup]
    exact LawfulFdTree.lookup_empty fd
  probe_total := by
    rintro _ ⟨t, ht, rfl⟩ fd
    simpa only [h.rbProbe, h.load, h.lookup] using LawfulFdTree.probe_total ht fd
  probe_wf := hwf
  fdOf_iff := by
    rintro _ ⟨t, ht, rfl⟩ a fd
    rw [h.fdOf, h.lookup]
    exact LawfulFdTree.fdOf_iff ht
  store_same := hsame
  insert_spec := by
    rintro _ ⟨t, ht, rfl⟩ fd a p hp habs hfresh hok
    rw [h.rbProbe] at hp
    rw [h.lookup] at habs
    rw [h.fdOf] at hfresh
    rw [h.insertOk] at hok
    obtain ⟨t', hrun, hload, hvalid, hlook⟩ := LawfulFdTree.insert_spec ht hp habs hfresh hok
    refine ⟨f t', ?_, ?_, ⟨t', hvalid, rfl⟩, ?_⟩
    · rw [h.makeRbnode, h.rbInsert, hrun]
      rfl
    · rw [h.load, hload]
    · rw [h.lookup, h.lookup, hlook]
  load_store := hload
  insert_bad := by
    rintro _ ⟨t, ht, rfl⟩ fd a p t' t'' hp habs hfresh hok hins hst ⟨u, hu, rfl⟩
    rw [h.rbProbe] at hp
    rw [h.lookup] at habs
    rw [h.fdOf] at hfresh
    rw [h.insertOk] at hok
    rw [h.makeRbnode, h.rbInsert] at hins
    obtain ⟨t₁, hrun, rfl⟩ := Option.map_eq_some_iff.mp hins
    rw [h.store] at hst
    obtain ⟨t₂, hrun', heq⟩ := Option.map_eq_some_iff.mp hst
    obtain rfl := h.injective heq
    exact LawfulFdTree.insert_bad ht hp habs hfresh hok hrun hrun' hu
  dangling_bad := by
    rintro _ ⟨t, ht, rfl⟩ fd a p t' hp habs hfresh hst ⟨u, hu, rfl⟩
    rw [h.rbProbe] at hp
    rw [h.lookup] at habs
    rw [h.fdOf] at hfresh
    rw [h.makeRbnode, h.free, h.store] at hst
    obtain ⟨t₁, hrun, heq⟩ := Option.map_eq_some_iff.mp hst
    obtain rfl := h.injective heq
    exact LawfulFdTree.dangling_bad ht hp habs hfresh hrun hu
  extract_spec := by
    rintro _ ⟨t, ht, rfl⟩ fd a p hp ha hok
    rw [h.rbProbe] at hp
    rw [h.lookup] at ha
    rw [h.extractOk] at hok
    obtain ⟨t', hrun, hvalid, hlook⟩ := LawfulFdTree.extract_spec ht hp ha hok
    refine ⟨f t', ?_, ⟨_, hvalid, (h.free t' a).symm⟩, ?_⟩
    · rw [h.rbExtract, hrun]
      rfl
    · rw [h.free, h.lookup, h.lookup, hlook]
  extract_bad := by
    rintro _ ⟨t, ht, rfl⟩ fd a b p t'' hp ha hok hrun ⟨u, hu, hfree⟩
    rw [h.rbProbe] at hp
    rw [h.lookup] at ha
    rw [h.extractOk] at hok
    rw [h.rbExtract] at hrun
    obtain ⟨⟨c, t'⟩, hext, ⟨⟩⟩ := Option.map_eq_some_iff.mp hrun
    obtain rfl := h.injective (hfree.trans (h.free t' c))
    exact LawfulFdTree.extract_bad ht hp ha hok hext hu
  slot_unique := by
    rintro _ ⟨t, ht, rfl⟩ fd a p hwf hload ha
    rw [h.load] at hload
    rw [h.lookup] at ha
    rw [h.rbProbe]
    exact LawfulFdTree.slot_unique ht hwf hload ha
  refToThis := by
    rintro _ ⟨t, ht, rfl⟩ fd a ha
    rw [h.lookup] at ha
    rw [h.rbRefToThis, h.rbProbe]
    exact LawfulFdTree.refToThis ht ha

end FdTree

section

variable {L : NodeLayout}

/-- **Packing** embeds the trees with fields in those with packed words. -/
theorem embeds_packTree : FdTree.Embeds (RbMem.packTree L) where
  injective := packTree_injective
  empty := rfl
  rbProbe m fd := by
    show ((RbProg.rbProbe .root fd).run (packedMem L) (m.pack L)).map Prod.fst = _
    rw [pack_rbProbe, Option.map_map]
    exact Option.map_id'
  load m p := by
    show (packedMem L _ (.load p.1) (m.pack L)).map Prod.fst = _
    rw [represents_pack, splitMem, Option.map_map, Option.map_map]
    exact Option.map_id'
  store m p a := by
    show (packedMem L _ (.store (some a) p.1) (m.pack L)).map _ = _
    rw [represents_pack, splitMem, Option.map_map, Option.map_map]
    rfl
  makeRbnode m a fd := congrArg PackedTree.mk <| by
    simp only [PackedMem.makeRbnode, RbMem.pack, FdTree.makeRbnode, RbMem.makeRbnode,
      RbMem.packTree, PackedMem.mk.injEq, and_true]
    have hnew : (⟨1, none, none, fd⟩ : PackedNode) = RbLinks.pack L ⟨true, none, none, none, fd⟩ :=
      by simp [RbLinks.pack, withLow, NodeLayout.ofPtr]
    rw [hnew]
    exact (Function.comp_update (Option.map (·.pack L)) m.node a
      (some ⟨true, none, none, none, fd⟩)).symm
  free m a := congrArg PackedTree.mk <| by
    simp only [RbMem.pack, FdTree.free, RbMem.free, RbMem.packTree, PackedMem.mk.injEq, and_true]
    exact (Function.comp_update (Option.map (·.pack L)) m.node a none).symm
  rbInsert m a p := by
    show ((RbProg.rbInsert a p.1 p.2).run (packedMem L) (m.pack L)).map _ = _
    rw [pack_rbInsert, Option.map_map]
    rfl
  rbExtract m p := by
    show ((RbProg.rbExtract p.1 p.2).run (packedMem L) (m.pack L)).map _ = _
    rw [pack_rbExtract, Option.map_map]
    rfl
  rbRefToThis m a := by
    show ((RbProg.rbRefToThis a).run (packedMem L) (m.pack L)).map Prod.fst = _
    rw [pack_rbRefToThis, Option.map_map]
    exact Option.map_id'
  fdOf m a := by
    show ((m.node a).map (·.pack L)).map PackedNode.fd = (m.node a).map RbLinks.fd
    rw [Option.map_map]
    rfl
  insertOk m fd := by
    show (!((m.pack L).unpack L).mixedInsert fd) = _
    rw [unpack_pack]
    rfl
  extractOk m fd := by
    show (!((m.pack L).unpack L).adjacentBlackPred fd) = _
    rw [unpack_pack]
    rfl

/-- The search returns a slot with the node that holds it, in any memory. -/
theorem run_rbProbeLoop_holder {σ : Type} {K : Memory RbCmd σ} {m : σ} {fd : ℤ} {fuel : ℕ}
    (place : RbPlace) {r : (RbPlace × Ptr) × σ}
    (h : (RbProg.rbProbeLoop fd fuel place place.holder).run K m = some r) :
    r.1.2 = r.1.1.holder := by
  induction fuel generalizing place m with
  | zero => cases h
  | succ fuel ih =>
      simp only [RbProg.rbProbeLoop, run_bind, run_perform, Option.bind_eq_some_iff] at h
      obtain ⟨⟨p, m⟩, -, h⟩ := h
      cases p with
      | none => exact Option.some.inj h ▸ rfl
      | some a =>
          simp only [run_bind, run_perform, Option.bind_eq_some_iff, run_ite] at h
          obtain ⟨⟨n, m⟩, -, h⟩ := h
          split at h
          · exact Option.some.inj h ▸ rfl
          · exact ih (.child a _) h

/-- Writing to a slot what it already holds changes nothing. -/
theorem store_same_packed {m : PackedMem} {place : RbPlace} {a : Addr}
    (h : (packedMem L _ (.load place) m).map Prod.fst = some (some a)) :
    m.store (some a) place = some m := by
  rcases place with _ | ⟨b, d⟩
  · obtain ⟨r, hr, hload⟩ := Option.map_eq_some_iff.mp h
    obtain rfl := Option.some.inj hr
    simp only [PackedMem.store, ← hload]
  · simp only [packedMem, Option.map_map, Option.map_eq_some_iff] at h
    obtain ⟨n, hn, hchild⟩ := h
    have hupd : Function.update m.node b (some n) = m.node := by
      rw [← hn, Function.update_eq_self]
    cases d with
    | left =>
        have hset : { n with left := some a } = n := congrArg (PackedNode.mk n.word · n.right n.fd)
          hchild.symm
        simp only [PackedMem.store, hn, Option.map_some, hset, hupd]
    | right =>
        have hset : { n with right := some a } = n := congrArg (PackedNode.mk n.word n.left · n.fd)
          hchild.symm
        simp only [PackedMem.store, hn, Option.map_some, hset, hupd]

/-- What has been written to a slot is there. -/
theorem load_store_packed {m m' : PackedMem} {place : RbPlace} {p : Ptr}
    (h : m.store p place = some m') :
    (packedMem L _ (.load place) m').map Prod.fst = some p := by
  rcases place with _ | ⟨b, d⟩
  · exact Option.some.inj h ▸ rfl
  · cases d with
    | left =>
        simp only [PackedMem.store, Option.map_eq_some_iff] at h
        obtain ⟨n, -, rfl⟩ := h
        simp [packedMem, PackedNode.links, RbLinks.child]
    | right =>
        simp only [PackedMem.store, Option.map_eq_some_iff] at h
        obtain ⟨n, -, rfl⟩ := h
        simp [packedMem, PackedNode.links, RbLinks.child]

instance : LawfulFdTree (PackedTree L) (RbPlace × Ptr) :=
  embeds_packTree.lawful
    (fun {t fd p} h => by
      obtain ⟨⟨r, m⟩, hrun, rfl⟩ := Option.map_eq_some_iff.mp h
      simp only [RbProg.rbProbe, run_bind, run_perform] at hrun
      obtain ⟨top, -, hrun⟩ := Option.bind_eq_some_iff.mp hrun
      exact run_rbProbeLoop_holder .root hrun)
    (fun {t p a} h => by
      show ((t.mem.store (some a) p.1).map fun m => ((), m)).map _ = _
      rw [store_same_packed h]
      rfl)
    fun {t t' p a} h => by
      obtain ⟨r, hst, rfl⟩ := Option.map_eq_some_iff.mp h
      obtain ⟨m', hst', rfl⟩ := Option.map_eq_some_iff.mp hst
      exact load_store_packed hst'

end

/-- **The functions of `rbtree.c` on packed words** give what those of `RbTree` give, and leave
what those leave. -/
theorem rbtree_packed (L : NodeLayout) (m : RbMem) (a : Addr) (fd : ℤ) (place : RbPlace)
    (parent : Ptr) :
    (RbProg.rbRefToThis a).run (packedMem L) (m.pack L) =
        (m.rbRefToThis a).map (fun r => (r, m.pack L)) ∧
      (RbProg.rbProbe place fd).run (packedMem L) (m.pack L) =
        (m.rbProbe place fd).map (fun r => (r, m.pack L)) ∧
      (RbProg.rbInsert a place parent).run (packedMem L) (m.pack L) =
        (m.rbInsert a place parent).map (fun m' => ((), m'.pack L)) ∧
      (RbProg.rbExtract place parent).run (packedMem L) (m.pack L) =
        (m.rbExtract place parent).map (fun r => (r.1, r.2.pack L)) :=
  ⟨pack_rbRefToThis L m a, pack_rbProbe L m place fd, pack_rbInsert L m a place parent,
    pack_rbExtract L m place parent⟩

end IoEngine
