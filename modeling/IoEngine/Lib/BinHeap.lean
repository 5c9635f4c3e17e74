import Mathlib.Data.List.Basic
import Mathlib.Order.Defs.Unbundled

/-!
# Binary Heaps in a List

A binary min-heap stored in a list: the children of position `i` are `2 * i + 1` and
`2 * i + 2`. The order is an arbitrary strict weak order.

The algorithms that repair a heap move one element along a path by exchanging it with
its parent or with its smaller child. While they do, the order holds but for the edges of
one position:

* `OrderedUp lt l k`: but for the edge from `k` up to its parent;
* `OrderedDown lt l k`: but for the edges from `k` down to its children.

In both the children of `k` are not smaller than the parent of `k`, which is what makes
one exchange move the violation instead of spreading it.
-/

namespace BinHeap

variable {α : Type}

/-- The parent of a position. -/
def up (i : ℕ) : ℕ := (i - 1) / 2

/-- The left child of a position; the right child is the next one. -/
def left (i : ℕ) : ℕ := 2 * i + 1

/-- The parent stands before its child. -/
theorem up_lt {i : ℕ} (h : i ≠ 0) : up i < i := by
  unfold up
  omega

/-- The positions below `k`. -/
theorem up_eq_iff {i k : ℕ} (h : i ≠ 0) : up i = k ↔ i = left k ∨ i = left k + 1 := by
  unfold up left
  omega

/-! ### Exchanging two elements -/

/-- The list with the elements at two positions exchanged. -/
def swapAt (l : List α) (i j : ℕ) : List α :=
  match l[i]?, l[j]? with
  | some x, some y => (l.set i y).set j x
  | _, _ => l

@[simp] theorem length_swapAt (l : List α) (i j : ℕ) : (swapAt l i j).length = l.length := by
  unfold swapAt
  split <;> simp

/-- An exchange keeps the elements. -/
theorem swapAt_perm (l : List α) (i j : ℕ) : (swapAt l i j).Perm l := by
  unfold swapAt
  split
  next x y hx hy =>
    obtain ⟨hi, rfl⟩ := List.getElem?_eq_some_iff.mp hx
    obtain ⟨hj, rfl⟩ := List.getElem?_eq_some_iff.mp hy
    exact List.set_set_perm hi hj
  next => exact .refl _

/-- Reading after an exchange. -/
theorem getElem?_swapAt {l : List α} {i j : ℕ} (hi : i < l.length) (hj : j < l.length)
    (k : ℕ) : (swapAt l i j)[k]? = if k = i then l[j]? else if k = j then l[i]? else l[k]? := by
  have hx := List.getElem?_eq_getElem hi
  have hy := List.getElem?_eq_getElem hj
  rw [swapAt, hx, hy]
  by_cases hki : k = i
  · subst hki
    by_cases hkj : k = j
    · subst hkj
      simp [hi]
    · simp [Ne.symm hkj, hi]
  · by_cases hkj : k = j
    · subst hkj
      simp [hki, hj]
    · simp [Ne.symm hki, Ne.symm hkj, hki, hkj]

/-- Exchanging the ends of a list and dropping the last element removes the first one and
puts the last one in its place. -/
theorem dropLast_swapAt_ends {l : List α} {x : α} (h : l[0]? = some x) :
    ∃ y, l.getLast? = some y ∧
      (swapAt l 0 (l.length - 1)).dropLast = l.dropLast.set 0 y ∧
      (x :: (swapAt l 0 (l.length - 1)).dropLast).Perm l := by
  match l, h with
  | z :: rest, h =>
      obtain rfl : z = x := by simpa using h
      rcases List.eq_nil_or_concat rest with rfl | ⟨mid, y, rfl⟩
      · exact ⟨z, rfl, by simp [swapAt], by simp [swapAt]⟩
      · have hsw : swapAt (z :: mid.concat y) 0 ((z :: mid.concat y).length - 1) =
            (y :: mid).concat z := by
          simp [swapAt]
        refine ⟨y, by simp [List.getLast?_cons], ?_, ?_⟩
        · rw [hsw, List.concat_eq_append, List.dropLast_concat]
          simp [List.dropLast_cons_of_ne_nil]
        · rw [hsw, List.concat_eq_append, List.dropLast_concat]
          simpa using (List.perm_append_singleton y mid).symm

/-! ### The order -/

section order

variable (lt : α → α → Prop)

/-- The heap order: no element is smaller than its parent. -/
def Ordered (l : List α) : Prop :=
  ∀ i x y, i ≠ 0 → l[i]? = some x → l[up i]? = some y → ¬ lt x y

/-- The children of `k` are not smaller than the parent of `k`. -/
def Grand (l : List α) (k : ℕ) : Prop :=
  k ≠ 0 → ∀ i x y, i ≠ 0 → up i = k → l[i]? = some x → l[up k]? = some y → ¬ lt x y

/-- The heap order but for the edge from `k` to its parent. -/
structure OrderedUp (l : List α) (k : ℕ) : Prop where
  edge : ∀ i x y, i ≠ 0 → i ≠ k → l[i]? = some x → l[up i]? = some y → ¬ lt x y
  grand : Grand lt l k

/-- The heap order but for the edges from `k` to its children. -/
structure OrderedDown (l : List α) (k : ℕ) : Prop where
  edge : ∀ i x y, i ≠ 0 → up i ≠ k → l[i]? = some x → l[up i]? = some y → ¬ lt x y
  grand : Grand lt l k

end order

section sift

variable {lt : α → α → Prop} {l : List α} {j k : ℕ}

/-- Everything is ordered above an unordered edge once its element is not smaller than
its parent. -/
theorem OrderedUp.finish (h : OrderedUp lt l k)
    (hk : k ≠ 0 → ∀ x y, l[k]? = some x → l[up k]? = some y → ¬ lt x y) : Ordered lt l := by
  intro i x y hi hx hy
  by_cases hik : i = k
  · subst hik
    exact hk hi x y hx hy
  · exact h.edge i x y hi hik hx hy

/-- Everything is ordered below unordered edges once the children are not smaller. -/
theorem OrderedDown.finish (h : OrderedDown lt l k)
    (hk : ∀ i x y, i ≠ 0 → up i = k → l[i]? = some x → l[k]? = some y → ¬ lt x y) :
    Ordered lt l := by
  intro i x y hi hx hy
  by_cases hik : up i = k
  · exact hk i x y hi hik hx (hik ▸ hy)
  · exact h.edge i x y hi hik hx hy

/-- A fully ordered heap is ordered but for the edges below the root. -/
theorem Ordered.down (h : Ordered lt l) : OrderedDown lt l 0 :=
  ⟨fun i x y hi _ hx hy => h i x y hi hx hy, fun h0 => absurd rfl h0⟩

/-- Appending an element leaves only the edge above it unordered. -/
theorem Ordered.append (h : Ordered lt l) (x : α) : OrderedUp lt (l ++ [x]) l.length := by
  constructor
  · intro i a b hi hil ha hb
    have hlt : i < l.length := by
      have := (List.getElem?_eq_some_iff.mp ha).1
      simp at this
      omega
    have hup := up_lt hi
    rw [List.getElem?_append_left hlt] at ha
    rw [List.getElem?_append_left (by omega)] at hb
    exact h i a b hi ha hb
  · intro hl i a b hi hup ha _
    have h₁ := (List.getElem?_eq_some_iff.mp ha).1
    have h₂ := up_lt hi
    simp at h₁
    omega

/-- Replacing the root and dropping the last element leaves only the edges below the root
unordered. -/
theorem OrderedDown.replace_root (h : OrderedDown lt l 0) (x : α) :
    OrderedDown lt (l.dropLast.set 0 x) 0 := by
  refine ⟨fun i a b hi hup ha hb => ?_, fun h0 => absurd rfl h0⟩
  rw [List.getElem?_set_ne (Ne.symm hi), List.getElem?_dropLast] at ha
  rw [List.getElem?_set_ne (Ne.symm hup), List.getElem?_dropLast] at hb
  split at ha <;> split at hb <;> simp_all
  exact h.edge i a b hi hup ha hb

variable [IsStrictWeakOrder α lt]

/-- Not being smaller is transitive. -/
theorem not_lt_trans {x y z : α} (h₁ : ¬ lt x y) (h₂ : ¬ lt y z) : ¬ lt x z := by
  intro h
  by_cases hyx : lt y x
  · exact h₂ (trans_of lt hyx h)
  · by_cases hzy : lt z y
    · exact h₁ (trans_of lt h hzy)
    · exact (IsStrictWeakOrder.incomp_trans x y z ⟨h₁, hyx⟩ ⟨h₂, hzy⟩).1 h

/-- **One step up**: exchanging `k` with its greater parent moves the unordered edge to
the parent. -/
theorem OrderedUp.swap (h : OrderedUp lt l k) (hk : k ≠ 0) {x y : α} (hx : l[k]? = some x)
    (hy : l[up k]? = some y) (hlt : lt x y) : OrderedUp lt (swapAt l (up k) k) (up k) := by
  obtain ⟨hkl, -⟩ := List.getElem?_eq_some_iff.mp hx
  have hup := up_lt hk
  have hread := getElem?_swapAt (l := l) (i := up k) (j := k) (by omega) hkl
  constructor
  · intro i a b hi hip ha hb
    rw [hread] at ha hb
    by_cases hik : i = k
    · subst hik
      simp only [hip, if_true, if_false] at ha hb
      obtain rfl : y = a := Option.some.inj (hy.symm.trans ha)
      obtain rfl : x = b := Option.some.inj (hx.symm.trans hb)
      exact asymm_of lt hlt
    · simp only [hip, hik, if_false] at ha
      by_cases hpp : up i = up k
      · rw [if_pos hpp] at hb
        obtain rfl : x = b := Option.some.inj (hx.symm.trans hb)
        have hay := h.edge i a y hi hik ha (hpp ▸ hy)
        exact fun hax => hay (trans_of lt hax hlt)
      · rw [if_neg hpp] at hb
        by_cases hpk : up i = k
        · rw [if_pos hpk] at hb
          exact h.grand hk i a b hi hpk ha hb
        · rw [if_neg hpk] at hb
          exact h.edge i a b hi hik ha hb
  · intro hp i a b hi hiup ha hb
    have hupup := up_lt hp
    rw [hread] at ha hb
    rw [if_neg (by omega), if_neg (by omega)] at hb
    have hpar := h.edge (up k) y b hp (by omega) hy hb
    rw [if_neg (by have := up_lt hi; omega)] at ha
    by_cases hik : i = k
    · rw [if_pos hik] at ha
      obtain rfl : y = a := Option.some.inj (hy.symm.trans ha)
      exact hpar
    · rw [if_neg hik] at ha
      exact not_lt_trans (h.edge i a y hi hik ha (hiup ▸ hy)) hpar

/-- **One step down**: exchanging `k` with its smaller child `j`, which is not greater
than the other child, moves the unordered edges to that child. -/
theorem OrderedDown.swap (h : OrderedDown lt l k) (hj : j ≠ 0) (hjk : up j = k) {x y : α}
    (hx : l[j]? = some x) (hy : l[k]? = some y) (hlt : lt x y)
    (hmin : ∀ i z, i ≠ 0 → up i = k → i ≠ j → l[i]? = some z → ¬ lt z x) :
    OrderedDown lt (swapAt l j k) j := by
  obtain ⟨hjl, -⟩ := List.getElem?_eq_some_iff.mp hx
  have hup := up_lt hj
  have hread := getElem?_swapAt (l := l) (i := j) (j := k) hjl (by omega)
  constructor
  · intro i a b hi hij ha hb
    rw [hread] at ha hb
    rw [if_neg hij] at hb
    by_cases hi' : i = j
    · rw [if_pos hi'] at ha
      rw [if_pos (hi' ▸ hjk)] at hb
      obtain rfl : y = a := Option.some.inj (hy.symm.trans ha)
      obtain rfl : x = b := Option.some.inj (hx.symm.trans hb)
      exact asymm_of lt hlt
    · rw [if_neg hi'] at ha
      by_cases hik : i = k
      · subst hik
        have := up_lt hi
        rw [if_pos rfl] at ha
        rw [if_neg (by omega)] at hb
        obtain rfl : x = a := Option.some.inj (hx.symm.trans ha)
        exact h.grand hi j x b hj hjk hx hb
      · rw [if_neg hik] at ha
        by_cases hpk : up i = k
        · rw [if_pos hpk] at hb
          obtain rfl : x = b := Option.some.inj (hx.symm.trans hb)
          exact hmin i a hi hpk hi' ha
        · rw [if_neg hpk] at hb
          exact h.edge i a b hi hpk ha hb
  · intro _ i a b hi hij ha hb
    have hii := up_lt hi
    rw [hread] at ha hb
    rw [if_neg (by omega), if_neg (by omega)] at ha
    rw [hjk, if_neg (by omega), if_pos rfl] at hb
    obtain rfl : x = b := Option.some.inj (hx.symm.trans hb)
    exact h.edge i a x hi (by omega) ha (hij ▸ hx)

/-- **The root is a least element.** -/
theorem Ordered.root_le (h : Ordered lt l) {r x : α} (hr : l[0]? = some r) (hx : x ∈ l) :
    ¬ lt x r := by
  obtain ⟨i, hi⟩ := List.mem_iff_getElem?.mp hx
  induction i using Nat.strongRecOn generalizing x with
  | ind i ih =>
      by_cases hi0 : i = 0
      · subst hi0
        obtain rfl : r = x := Option.some.inj (hr.symm.trans hi)
        exact irrefl_of lt r
      · obtain ⟨hil, -⟩ := List.getElem?_eq_some_iff.mp hi
        have hup := up_lt hi0
        have hy := List.getElem?_eq_getElem (l := l) (i := up i) (by omega)
        exact not_lt_trans (h i x _ hi0 hi hy) (ih (up i) hup (List.getElem_mem _) hy)

/-- Lowering an element below all others leaves only the edge above it unordered. -/
theorem Ordered.lower (h : Ordered lt l) {x : α} (hx : ∀ y ∈ l, ¬ lt y x) :
    OrderedUp lt (l.set k x) k := by
  constructor
  · intro i a b hi hik ha hb
    rw [List.getElem?_set_ne (Ne.symm hik)] at ha
    by_cases hup : up i = k
    · rw [hup, List.getElem?_set_self'] at hb
      obtain ⟨_, -, rfl⟩ := Option.map_eq_some_iff.mp hb
      exact hx a (List.mem_of_getElem? ha)
    · rw [List.getElem?_set_ne (Ne.symm hup)] at hb
      exact h i a b hi ha hb
  · intro hk i a b hi hup ha hb
    have h₁ := up_lt hi
    have h₂ := up_lt hk
    rw [List.getElem?_set_ne (by omega)] at ha
    rw [List.getElem?_set_ne (by omega)] at hb
    have hkl : k < l.length := by
      have := (List.getElem?_eq_some_iff.mp ha).1
      omega
    have hk' := List.getElem?_eq_getElem hkl
    exact not_lt_trans (h i a _ hi ha (hup ▸ hk')) (h k _ b hk hk' hb)

end sift

end BinHeap
