import Mathlib.Algebra.Order.Ring.Int
import Mathlib.Data.List.Perm.Subperm
import IoEngine.RbRepr

/-!
# Finding a File Descriptor

A valid memory (`ValidTree`) holds a red-black tree that is strictly ordered by `fd`, and
its live nodes are exactly the nodes of the tree.

## Main results

* `WellLinked.probe`: **`rb_probe` ends** on a search tree and finds the position of `fd`:
  the slot and parent it returns are the hole of a context with the smaller keys before
  it and the greater ones after it.
* `WellLinked.lookup_iff`: read as a finite map, `rb_probe` looks up the node of `fd`.
* `WellLinked.refToThis`: **the two ways to locate a node agree**: `rb_ref_to_this` of a
  node yields the slot and parent that `rb_probe` finds for its `fd`.
-/

open RedBlack RedBlack.ColTree RedBlack.Ctx

namespace IoEngine

/-- Strictly ordered by `fd`. -/
def FdOrdered (l : List RbElem) : Prop :=
  l.Pairwise fun x y => x.2 < y.2

/-- The memory holds the red-black tree `T`, ordered by `fd`, and nothing else is live. -/
structure ValidTree (m : RbMem) (T : ColTree RbElem) : Prop where
  holds : Holds m T
  redBlack : IsRedBlack T
  ordered : FdOrdered T.toList
  live : ∀ a, (m.node a).isSome ↔ a ∈ addrs T
  below : ∀ a ∈ addrs T, a < m.top

/-- **A search tree with parent pointers**, whatever the colours of its nodes. -/
structure WellLinked (m : RbMem) (T : ColTree RbElem) : Prop where
  holds : Holds m T
  ordered : FdOrdered T.toList
  below : ∀ a ∈ addrs T, a < m.top

/-- A valid tree is well linked. -/
theorem ValidTree.wellLinked {m : RbMem} {T : ColTree RbElem} (h : ValidTree m T) :
    WellLinked m T :=
  ⟨h.holds, h.ordered, h.below⟩

/-- The structure rooted at the root pointer is a valid red-black tree. -/
def RbMem.Valid (m : RbMem) : Prop :=
  ∃ T, ValidTree m T

/-- The node found for `fd`, `none` when the slot found is empty or the search fails. -/
def RbMem.lookup (m : RbMem) (fd : ℤ) : Ptr :=
  ((m.rbProbe .root fd).bind fun r => m.load r.1).join

/-- Distinct addresses below a bound are at most that many. -/
theorem length_le_of_below {l : List Addr} {n : ℕ} (hn : l.Nodup) (hl : ∀ a ∈ l, a < n) :
    l.length ≤ n := by
  have hsub : l ⊆ List.range n := fun a ha => List.mem_range.mpr (hl a ha)
  simpa using (List.subperm_of_subset hn hsub).length_le

/-- A tree has no more nodes than addresses are in use. -/
theorem WellLinked.length_le {m : RbMem} {T : ColTree RbElem} (h : WellLinked m T) :
    T.toList.length ≤ m.top := by
  simpa [addrs] using length_le_of_below h.holds.nodup h.below

/-- A valid tree has no more nodes than addresses are in use. -/
theorem ValidTree.length_le {m : RbMem} {T : ColTree RbElem} (h : ValidTree m T) :
    T.toList.length ≤ m.top :=
  h.wellLinked.length_le

/-- A context is not longer than the tree it is part of. -/
theorem length_ctx_le (c : Ctx RbElem) (t : ColTree RbElem) :
    c.length + t.toList.length ≤ (plug c t).toList.length := by
  induction c generalizing t with
  | nil => simp [plug]
  | cons f c ih =>
      refine le_trans ?_ (ih _)
      rw [(toList_side_perm _ _ _ _ _).length_eq]
      simp only [List.length_cons, List.length_append]
      omega

/-! ### The search -/

/-- The keys before a position are smaller than `fd`, those after it greater. -/
structure Between (c : Ctx RbElem) (fd : ℤ) : Prop where
  lt : ∀ x ∈ before c, x.2 < fd
  gt : ∀ x ∈ after c, fd < x.2

/-- Going down past a key different from `fd`, in the direction `rb_probe` takes, keeps
the position between the smaller and the greater keys. -/
theorem Between.down {c : Ctx RbElem} {fd : ℤ} {red : Bool} {x : RbElem} {l r : ColTree RbElem}
    (h : Between c fd) (hord : FdOrdered (plug c (node red l x r)).toList) (hne : x.2 ≠ fd) :
    Between
      (⟨if x.2 < fd then .right else .left, red, x, if x.2 < fd then l else r⟩ :: c) fd := by
  rw [toList_plug, toList, FdOrdered, List.pairwise_append] at hord
  have hmid := (List.pairwise_append.mp hord.1).2.1
  rw [List.pairwise_append, List.pairwise_cons] at hmid
  by_cases hx : x.2 < fd
  · refine ⟨fun y hy => ?_, fun y hy => h.gt y (by simpa [after, hx] using hy)⟩
    simp only [before, hx, if_true, List.append_assoc, List.mem_append,
      List.mem_singleton] at hy
    rcases hy with hy | hy | rfl
    · exact h.lt y hy
    · exact (hmid.2.2 y hy x (by simp)).trans hx
    · exact hx
  · have hgt : fd < x.2 := lt_of_le_of_ne (not_lt.mp hx) hne.symm
    refine ⟨fun y hy => h.lt y (by simpa [before, hx] using hy), fun y hy => ?_⟩
    simp only [after, hx, if_false, List.cons_append, List.mem_cons, List.mem_append] at hy
    rcases hy with rfl | hy | hy
    · exact hgt
    · exact hgt.trans (hmid.2.1.1 y hy)
    · exact h.gt y hy

/-- **The loop of `rb_probe`** from any position of an ordered tree. -/
theorem rbProbeLoop_spec {m : RbMem} (fd : ℤ) (fuel : ℕ) {c : Ctx RbElem} {t : ColTree RbElem}
    (h : Holds m (plug c t)) (hord : FdOrdered (plug c t).toList) (hb : Between c fd)
    (hfuel : t.toList.length < fuel) :
    ∃ c' t', plug c' t' = plug c t ∧
      m.rbProbeLoop fd fuel (holePlace c) (holeParent c) =
        some (holePlace c', holeParent c') ∧
      Between c' fd ∧ (t' = .nil ∨ ∃ red a l r, t' = .node red l (a, fd) r) := by
  induction t generalizing c fuel with
  | nil =>
      obtain ⟨fuel, rfl⟩ : ∃ k, fuel = k + 1 := ⟨fuel - 1, by omega⟩
      refine ⟨c, .nil, rfl, ?_, hb, .inl rfl⟩
      have hload := (holds_plug.mp h).1.load
      simp only [RbMem.rbProbeLoop, hload, ptr_nil, bind, Option.bind_some]
  | node red l x r ihl ihr =>
      obtain ⟨fuel, rfl⟩ : ∃ k, fuel = k + 1 := ⟨fuel - 1, by omega⟩
      have hload := (holds_plug.mp h).1.load
      have hx := Holds.node_eq (d := .left) h
      by_cases hfd : x.2 = fd
      · refine ⟨c, _, rfl, ?_, hb, .inr ⟨red, x.1, l, r, by rw [← hfd]⟩⟩
        simp only [RbMem.rbProbeLoop, hload, ptr, hx, fd_mkLinks, hfd, bind,
          Option.bind_some, if_true]
      · have hdown := hb.down hord hfd
        have hstep : m.rbProbeLoop fd (fuel + 1) (holePlace c) (holeParent c) =
            m.rbProbeLoop fd fuel (.child x.1 (if x.2 < fd then .right else .left))
              (some x.1) := by
          simp only [RbMem.rbProbeLoop, hload, ptr, hx, fd_mkLinks, hfd, bind,
            Option.bind_some, if_false]
        simp only [toList, List.length_append, List.length_cons] at hfuel
        rw [hstep]
        by_cases hlt : x.2 < fd
        · simp only [hlt, if_true] at hdown ⊢
          exact ihr _ (c := ⟨.right, red, x, l⟩ :: c) h hord hdown (by omega)
        · simp only [hlt, if_false] at hdown ⊢
          exact ihl _ (c := ⟨.left, red, x, r⟩ :: c) h hord hdown (by omega)

/-- **`rb_probe` ends** on a search tree and returns the position of `fd`. -/
theorem WellLinked.probe {m : RbMem} {T : ColTree RbElem} (h : WellLinked m T) (fd : ℤ) :
    ∃ c t, T = plug c t ∧ m.rbProbe .root fd = some (holePlace c, holeParent c) ∧
      Between c fd ∧ (t = .nil ∨ ∃ red a l r, t = .node red l (a, fd) r) := by
  obtain ⟨c, t, hT, hp, hb, ht⟩ := rbProbeLoop_spec fd (m.top + 1) (c := [])
    h.holds h.ordered ⟨by simp [before], by simp [after]⟩
    (Nat.lt_succ_of_le h.length_le)
  exact ⟨c, t, hT.symm, hp, hb, ht⟩

/-- The node found by the search is the one whose `fd` is sought. -/
theorem WellLinked.lookup_iff {m : RbMem} {T : ColTree RbElem} (h : WellLinked m T) {fd : ℤ}
    {a : Addr} : m.lookup fd = some a ↔ (a, fd) ∈ T.toList := by
  obtain ⟨c, t, rfl, hp, hb, ht⟩ := h.probe fd
  have hload := (holds_plug.mp h.holds).1.load
  have hlook : m.lookup fd = ptr t := by
    simp [RbMem.lookup, hp, hload]
  have hout : (a, fd) ∈ (plug c t).toList ↔ (a, fd) ∈ t.toList := by
    simp only [toList_plug, List.mem_append]
    constructor
    · rintro ((hm | hm) | hm)
      · exact absurd (hb.lt _ hm) (lt_irrefl _)
      · exact hm
      · exact absurd (hb.gt _ hm) (lt_irrefl _)
    · exact fun hm => .inl (.inr hm)
  rw [hlook, hout]
  rcases ht with rfl | ⟨red, b, l, r, rfl⟩
  · simp [toList]
  · have hord := h.ordered
    rw [toList_plug, FdOrdered, List.pairwise_append] at hord
    have hmid := (List.pairwise_append.mp hord.1).2.1
    rw [toList, List.pairwise_append, List.pairwise_cons] at hmid
    simp only [ptr, Option.some.injEq, toList, List.mem_append, List.mem_cons,
      Prod.mk.injEq, and_true]
    constructor
    · rintro rfl
      exact .inr (.inl rfl)
    · rintro (hm | rfl | hm)
      · exact absurd (hmid.2.2 _ hm (b, fd) (by simp)) (lt_irrefl _)
      · rfl
      · exact absurd (hmid.2.1.1 _ hm) (lt_irrefl _)

/-- A live node is found under its own `fd`. -/
theorem WellLinked.position {m : RbMem} {T : ColTree RbElem} (h : WellLinked m T) {fd : ℤ}
    {a : Addr} (ha : m.lookup fd = some a) :
    ∃ c red l r, T = plug c (.node red l (a, fd) r) ∧
      m.rbProbe .root fd = some (holePlace c, holeParent c) ∧ Between c fd := by
  obtain ⟨c, t, rfl, hp, hb, ht⟩ := h.probe fd
  have hload := (holds_plug.mp h.holds).1.load
  have hlook : m.lookup fd = ptr t := by
    simp [RbMem.lookup, hp, hload]
  rcases ht with rfl | ⟨red, b, l, r, rfl⟩
  · simp [hlook] at ha
  · obtain rfl : b = a := by simpa [hlook, ptr] using ha
    exact ⟨c, red, l, r, rfl, hp, hb⟩

/-- **The two ways to locate a node agree**: the step up through the parent pointer and
the search from the root give the same slot and the same parent. -/
theorem WellLinked.refToThis {m : RbMem} {T : ColTree RbElem} (h : WellLinked m T) {fd : ℤ}
    {a : Addr} (ha : m.lookup fd = some a) : m.rbRefToThis a = m.rbProbe .root fd := by
  obtain ⟨c, red, l, r, rfl, hp, -⟩ := h.position ha
  have hx := Holds.node_eq (d := .left) h.holds
  rw [hp]
  cases c with
  | nil => simp [RbMem.rbRefToThis, hx, holeParent, holePlace]
  | cons f c =>
      have hf := Holds.node_eq (c := c) (d := f.dir) h.holds
      have hdir := dir_mkLinks f.dir f.red (holeParent c) (ptr f.sib) f.elem.2
        (Holds.ptr_ne (c := c) (d := f.dir) h.holds (by simp))
      rw [ptr] at hf hdir
      rw [holeParent_cons] at hx ⊢
      simp only [RbMem.rbRefToThis, hx, parent_mkLinks, holePlace, bind,
        Option.bind_some, hf, hdir]

/-! ### Valid trees -/

section

variable {m : RbMem} {T : ColTree RbElem} {fd : ℤ} {a : Addr}

/-- **`rb_probe`** finds the node of a descriptor, or the hole where it belongs. -/
theorem ValidTree.probe (h : ValidTree m T) (fd : ℤ) :
    ∃ c t, T = plug c t ∧ m.rbProbe .root fd = some (holePlace c, holeParent c) ∧
      Between c fd ∧ (t = .nil ∨ ∃ red a l r, t = .node red l (a, fd) r) :=
  h.wellLinked.probe fd

/-- **What is found** under a descriptor is the node that the tree has for it. -/
theorem ValidTree.lookup_iff (h : ValidTree m T) : m.lookup fd = some a ↔ (a, fd) ∈ T.toList :=
  h.wellLinked.lookup_iff

/-- The place of a node of the tree is the one that `rb_probe` finds. -/
theorem ValidTree.position (h : ValidTree m T) (ha : m.lookup fd = some a) :
    ∃ c red l r, T = plug c (.node red l (a, fd) r) ∧
      m.rbProbe .root fd = some (holePlace c, holeParent c) ∧ Between c fd :=
  h.wellLinked.position ha

/-- `rb_ref_to_this` gives what `rb_probe` finds. -/
theorem ValidTree.refToThis (h : ValidTree m T) (ha : m.lookup fd = some a) :
    m.rbRefToThis a = m.rbProbe .root fd :=
  h.wellLinked.refToThis ha

end

end IoEngine
