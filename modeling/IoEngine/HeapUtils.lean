import IoEngine.Lib.BinHeap

/-!
# Sifting

This module embeds `heaputils.c`. Its two functions work on a `dynarray` through two
callbacks, a comparison and an exchange; the exchange of the timed events also rewrites
the events' back-indices, so it acts on more than the array. The model is generic in the
same way: a state `σ` with the array as a view (`elems`) and an exchange on the state,
which may fail when it follows a bad pointer.

## Main results

* `heapSiftUpIdx_spec` and `heapSiftDownIdx_spec`: for every strict weak order, an
  exchange that does what its name says (`SwapSpec`), and an array that is ordered but for
  the edges at one position, **both functions end in an ordered heap** with the same
  elements, and keep whatever the exchange keeps.
* `heapSift_repairs`: they do so **without leaving the array**.
-/

open BinHeap

namespace IoEngine

section loops

variable {σ α : Type} (elems : σ → List α) (lt : α → α → Bool) (swap : ℕ → ℕ → σ → Option σ)

/-- The loop of `heap_sift_up_idx`. -/
def heapSiftUpLoop : ℕ → σ → ℕ → Option σ
  | 0, _, _ => none
  | fuel + 1, s, idx =>
      if idx = 0 then some s
      else do
        let currElem ← (elems s)[idx]?
        let parentElem ← (elems s)[up idx]?
        if lt currElem parentElem then
          let s ← swap (up idx) idx s
          heapSiftUpLoop fuel s (up idx)
        else some s

/-- `heap_sift_up_idx`: every step at least halves the position. -/
def heapSiftUpIdx (s : σ) (idx : ℕ) : Option σ :=
  heapSiftUpLoop elems lt swap (idx + 1) s idx

/-- The position of the least element among `idx` and its children, of which there is at
least the left one; `idx` comes before the left child and that before the right one when
they are equal. -/
def minIdx (l : List α) (idx : ℕ) : Option ℕ := do
  let currElem ← l[idx]?
  let leftElem ← l[left idx]?
  let (min, minElem) := if lt leftElem currElem then (left idx, leftElem) else (idx, currElem)
  match l[left idx + 1]? with
  | none => some min
  | some rightElem => some (if lt rightElem minElem then left idx + 1 else min)

/-- The loop of `heap_sift_down_idx`. -/
def heapSiftDownLoop : ℕ → σ → ℕ → Option σ
  | 0, _, _ => none
  | fuel + 1, s, idx =>
      if (elems s).length ≤ left idx then some s
      else do
        let min ← minIdx lt (elems s) idx
        if min ≠ idx then
          let s ← swap min idx s
          heapSiftDownLoop fuel s min
        else some s

/-- `heap_sift_down_idx`: every step goes to a greater position. -/
def heapSiftDownIdx (s : σ) (idx : ℕ) : Option σ :=
  heapSiftDownLoop elems lt swap ((elems s).length + 1) s idx

end loops

/-! ### Correctness -/

section spec

variable {σ α : Type} {elems : σ → List α} {lt : α → α → Bool} {swap : ℕ → ℕ → σ → Option σ}

/-- There is an element at each position. -/
theorem exists_getElem? {l : List α} {i : ℕ} (h : i < l.length) : ∃ x, l[i]? = some x :=
  ⟨_, List.getElem?_eq_getElem h⟩

/-- The exchange succeeds on two positions of the array, exchanges their elements, and
keeps `P`. -/
def SwapSpec (elems : σ → List α) (swap : ℕ → ℕ → σ → Option σ) (P : σ → Prop) : Prop :=
  ∀ s i j, P s → i < (elems s).length → j < (elems s).length →
    ∃ s', swap i j s = some s' ∧ P s' ∧ elems s' = swapAt (elems s) i j

variable {P : σ → Prop}

/-- Sifting up ends on every array, ordered or not, and permutes it. -/
theorem heapSiftUpLoop_total (lt : α → α → Bool) (hswap : SwapSpec elems swap P) {fuel : ℕ}
    {s : σ} {idx : ℕ} (hP : P s) (hidx : idx < (elems s).length) (hfuel : idx < fuel) :
    ∃ s', heapSiftUpLoop elems lt swap fuel s idx = some s' ∧ P s' ∧
      (elems s').Perm (elems s) := by
  induction fuel generalizing s idx with
  | zero => omega
  | succ fuel ih =>
      by_cases h0 : idx = 0
      · exact ⟨s, by simp [heapSiftUpLoop, h0], hP, .refl _⟩
      · have hup := up_lt h0
        obtain ⟨x, hx⟩ := exists_getElem? hidx
        obtain ⟨y, hy⟩ := exists_getElem? (l := elems s) (i := up idx) (by omega)
        cases hlt : lt x y with
        | false => exact ⟨s, by simp [heapSiftUpLoop, h0, hx, hy, hlt], hP, .refl _⟩
        | true =>
            obtain ⟨s₁, e₁, hP₁, hel⟩ := hswap s (up idx) idx hP (by omega) hidx
            have hlen : up idx < (elems s₁).length := by
              rw [hel, length_swapAt]
              omega
            obtain ⟨s', e', hP', hperm⟩ := ih hP₁ hlen (by omega)
            refine ⟨s', ?_, hP', hperm.trans (hel ▸ swapAt_perm ..)⟩
            simp [heapSiftUpLoop, h0, hx, hy, hlt, e₁, e']

/-- `heap_sift_up_idx` ends on every array, ordered or not, and permutes it. -/
theorem heapSiftUpIdx_total (lt : α → α → Bool) (hswap : SwapSpec elems swap P) (s : σ) {idx : ℕ}
    (hP : P s) (hidx : idx < (elems s).length) :
    ∃ s', heapSiftUpIdx elems lt swap s idx = some s' ∧ P s' ∧ (elems s').Perm (elems s) :=
  heapSiftUpLoop_total lt hswap hP hidx (Nat.lt_succ_self _)

variable [IsStrictWeakOrder α fun x y => lt x y]

/-- The loop of `heap_sift_up_idx` by induction on its fuel: the unordered edge moves up. -/
theorem heapSiftUpLoop_spec (hswap : SwapSpec elems swap P) {fuel : ℕ} {s : σ} {idx : ℕ}
    (hP : P s) (hidx : idx < (elems s).length)
    (h : OrderedUp (fun x y => lt x y) (elems s) idx) (hfuel : idx < fuel) :
    ∃ s', heapSiftUpLoop elems lt swap fuel s idx = some s' ∧ P s' ∧
      Ordered (fun x y => lt x y) (elems s') ∧ (elems s').Perm (elems s) := by
  induction fuel generalizing s idx with
  | zero => omega
  | succ fuel ih =>
      by_cases h0 : idx = 0
      · refine ⟨s, by simp [heapSiftUpLoop, h0], hP, h.finish fun hne => absurd h0 hne, .refl _⟩
      · have hup := up_lt h0
        obtain ⟨x, hx⟩ := exists_getElem? hidx
        obtain ⟨y, hy⟩ := exists_getElem? (l := elems s) (i := up idx) (by omega)
        cases hlt : lt x y with
        | false =>
            refine ⟨s, ?_, hP, h.finish fun _ a b ha hb => ?_, .refl _⟩
            · simp [heapSiftUpLoop, h0, hx, hy, hlt]
            · obtain rfl : x = a := Option.some.inj (hx.symm.trans ha)
              obtain rfl : y = b := Option.some.inj (hy.symm.trans hb)
              simp [hlt]
        | true =>
            obtain ⟨s₁, e₁, hP₁, hel⟩ := hswap s (up idx) idx hP (by omega) hidx
            obtain ⟨s', e', hP', hord, hperm⟩ := ih hP₁ (by rw [hel, length_swapAt]; omega)
              (hel ▸ h.swap h0 hx hy hlt) (by omega)
            refine ⟨s', ?_, hP', hord, hperm.trans (hel ▸ swapAt_perm ..)⟩
            simp [heapSiftUpLoop, h0, hx, hy, hlt, e₁, e']

/-- **Sifting up** repairs an array that is ordered but for the edge above `idx`. -/
theorem heapSiftUpIdx_spec (hswap : SwapSpec elems swap P) {s : σ} {idx : ℕ} (hP : P s)
    (hidx : idx < (elems s).length) (h : OrderedUp (fun x y => lt x y) (elems s) idx) :
    ∃ s', heapSiftUpIdx elems lt swap s idx = some s' ∧ P s' ∧
      Ordered (fun x y => lt x y) (elems s') ∧ (elems s').Perm (elems s) :=
  heapSiftUpLoop_spec hswap hP hidx h (Nat.lt_succ_self _)

/-- What `minIdx` finds: `idx` itself when no child is smaller, else a child that is
smaller than `idx` and not greater than the other child. -/
theorem minIdx_spec (lt : α → α → Bool) [IsStrictWeakOrder α fun x y => lt x y] {l : List α}
    {idx : ℕ} (hl : left idx < l.length) :
    ∃ j, minIdx lt l idx = some j ∧
      ((j = idx ∧ ∀ i x y, i ≠ 0 → up i = idx → l[i]? = some x → l[idx]? = some y → ¬ lt x y) ∨
        (j ≠ idx ∧ j ≠ 0 ∧ up j = idx ∧ ∃ x y, l[j]? = some x ∧ l[idx]? = some y ∧ lt x y ∧
          ∀ i z, i ≠ 0 → up i = idx → i ≠ j → l[i]? = some z → ¬ lt z x)) := by
  have hne : left idx ≠ 0 ∧ left idx ≠ idx ∧ left idx + 1 ≠ idx := by
    unfold left
    omega
  obtain ⟨c, hidx⟩ := exists_getElem? (l := l) (i := idx) (by unfold left at hl; omega)
  obtain ⟨a, hleft⟩ := exists_getElem? hl
  have hupl : up (left idx) = idx := (up_eq_iff hne.1).mpr (.inl rfl)
  have hupr : up (left idx + 1) = idx := (up_eq_iff (by simp)).mpr (.inr rfl)
  -- the children are the left one and, where it exists, the right one
  have hchild : ∀ {i x}, i ≠ 0 → up i = idx → l[i]? = some x →
      (i = left idx ∧ x = a) ∨ (i = left idx + 1 ∧ l[left idx + 1]? = some x) := by
    intro i x hi hup hx
    rcases (up_eq_iff hi).mp hup with rfl | rfl
    · exact .inl ⟨rfl, Option.some.inj (hx.symm.trans hleft)⟩
    · exact .inr ⟨rfl, hx⟩
  cases hright : l[left idx + 1]? with
  | none =>
      cases hac : lt a c with
      | true =>
          refine ⟨left idx, by simp [minIdx, hidx, hleft, hright, hac],
            .inr ⟨hne.2.1, hne.1, hupl, a, c, hleft, hidx, hac, ?_⟩⟩
          intro i z hi hup hij hz
          rcases hchild hi hup hz with ⟨rfl, -⟩ | ⟨-, hz⟩
          · exact absurd rfl hij
          · simp [hright] at hz
      | false =>
          refine ⟨idx, by simp [minIdx, hidx, hleft, hright, hac],
            .inl ⟨rfl, fun i x y hi hup hx hy => ?_⟩⟩
          obtain rfl : c = y := Option.some.inj (hidx.symm.trans hy)
          rcases hchild hi hup hx with ⟨-, rfl⟩ | ⟨-, hz⟩
          · simp [hac]
          · simp [hright] at hz
  | some b =>
      -- `m` is the smaller one of `idx` and the left child
      by_cases hbm : lt b (if lt a c then a else c)
      · refine ⟨left idx + 1, ?_, .inr ⟨hne.2.2, by simp, hupr, b, c, hright, hidx, ?_, ?_⟩⟩
        · cases hac : lt a c <;> simp [minIdx, hidx, hleft, hright, hac] <;> simp_all
        · cases hac : lt a c with
          | true => exact trans_of (fun x y => lt x y) (by simpa [hac] using hbm) hac
          | false => simpa [hac] using hbm
        · intro i z hi hup hij hz
          rcases hchild hi hup hz with ⟨-, rfl⟩ | ⟨rfl, -⟩
          · cases hac : lt z c with
            | true => exact asymm_of (fun x y => lt x y) (by simpa [hac] using hbm)
            | false =>
                intro hzb
                have hbc : lt b c := by simpa [hac] using hbm
                exact absurd (trans_of (fun x y => lt x y) hzb hbc) (by simp [hac])
          · exact absurd rfl hij
      · cases hac : lt a c with
        | true =>
            refine ⟨left idx, ?_, .inr ⟨hne.2.1, hne.1, hupl, a, c, hleft, hidx, hac, ?_⟩⟩
            · simp_all [minIdx]
            · intro i z hi hup hij hz
              rcases hchild hi hup hz with ⟨rfl, -⟩ | ⟨-, hz⟩
              · exact absurd rfl hij
              · obtain rfl : b = z := Option.some.inj (hright.symm.trans hz)
                simpa [hac] using hbm
        | false =>
            refine ⟨idx, ?_, .inl ⟨rfl, fun i x y hi hup hx hy => ?_⟩⟩
            · simp_all [minIdx]
            · obtain rfl : c = y := Option.some.inj (hidx.symm.trans hy)
              rcases hchild hi hup hx with ⟨-, rfl⟩ | ⟨-, hz⟩
              · simp [hac]
              · obtain rfl : b = x := Option.some.inj (hright.symm.trans hz)
                simpa [hac] using hbm

variable (lt) in
/-- Sifting down ends and permutes the array, whatever its order. -/
theorem heapSiftDownLoop_total (hswap : SwapSpec elems swap P) {fuel : ℕ} {s : σ} {idx : ℕ}
    (hP : P s) (hfuel : (elems s).length ≤ idx + fuel) (hpos : 0 < fuel) :
    ∃ s', heapSiftDownLoop elems lt swap fuel s idx = some s' ∧ P s' ∧
      (elems s').Perm (elems s) := by
  induction fuel generalizing s idx with
  | zero => omega
  | succ fuel ih =>
      by_cases hleaf : (elems s).length ≤ left idx
      · exact ⟨s, by simp [heapSiftDownLoop, hleaf], hP, .refl _⟩
      · obtain ⟨j, hj, hcase⟩ := minIdx_spec lt (Nat.lt_of_not_le hleaf)
        rcases hcase with ⟨rfl, -⟩ | ⟨hji, hj0, rfl, x, y, hx, hy, -, -⟩
        · exact ⟨s, by simp [heapSiftDownLoop, hleaf, hj], hP, .refl _⟩
        · have h₁ := (List.getElem?_eq_some_iff.mp hx).1
          have h₂ := (List.getElem?_eq_some_iff.mp hy).1
          have h₃ := up_lt hj0
          obtain ⟨s₁, e₁, hP₁, hel⟩ := hswap s j (up j) hP h₁ h₂
          obtain ⟨s', e', hP', hperm⟩ := ih hP₁
            (show (elems s₁).length ≤ j + fuel by rw [hel, length_swapAt]; omega) (by omega)
          refine ⟨s', ?_, hP', hperm.trans (hel ▸ swapAt_perm ..)⟩
          simp [heapSiftDownLoop, hleaf, hj, hji, e₁, e']

variable (lt) in

/-- **Sifting down** ends, and keeps the elements. -/
theorem heapSiftDownIdx_total (hswap : SwapSpec elems swap P) (s : σ) (idx : ℕ) (hP : P s) :
    ∃ s', heapSiftDownIdx elems lt swap s idx = some s' ∧ P s' ∧ (elems s').Perm (elems s) :=
  heapSiftDownLoop_total lt hswap hP (by omega) (by omega)

/-- The loop of `heap_sift_down_idx` by induction on its fuel: the unordered edges move
down. -/
theorem heapSiftDownLoop_spec (hswap : SwapSpec elems swap P) {fuel : ℕ} {s : σ} {idx : ℕ}
    (hP : P s) (h : OrderedDown (fun x y => lt x y) (elems s) idx)
    (hfuel : (elems s).length ≤ idx + fuel) (hpos : 0 < fuel) :
    ∃ s', heapSiftDownLoop elems lt swap fuel s idx = some s' ∧ P s' ∧
      Ordered (fun x y => lt x y) (elems s') ∧ (elems s').Perm (elems s) := by
  induction fuel generalizing s idx with
  | zero => omega
  | succ fuel ih =>
      by_cases hleaf : (elems s).length ≤ left idx
      · refine ⟨s, by simp [heapSiftDownLoop, hleaf], hP, h.finish ?_, .refl _⟩
        intro i x y hi hup hx _
        have h₁ := (List.getElem?_eq_some_iff.mp hx).1
        have h₂ := (up_eq_iff hi).mp hup
        omega
      · obtain ⟨j, hj, hcase⟩ := minIdx_spec lt (Nat.lt_of_not_le hleaf)
        rcases hcase with ⟨rfl, hstop⟩ | ⟨hji, hj0, hup, x, y, hx, hy, hlt, hmin⟩
        · exact ⟨s, by simp [heapSiftDownLoop, hleaf, hj], hP, h.finish hstop, .refl _⟩
        · have h₁ := (List.getElem?_eq_some_iff.mp hx).1
          have h₂ := (List.getElem?_eq_some_iff.mp hy).1
          have h₃ := up_lt hj0
          obtain ⟨s₁, e₁, hP₁, hel⟩ := hswap s j idx hP h₁ h₂
          obtain ⟨s', e', hP', hord, hperm⟩ := ih hP₁ (hel ▸ h.swap hj0 hup hx hy hlt hmin)
            (by rw [hel, length_swapAt]; omega) (by omega)
          refine ⟨s', ?_, hP', hord, hperm.trans (hel ▸ swapAt_perm ..)⟩
          simp [heapSiftDownLoop, hleaf, hj, hji, e₁, e']

/-- **Sifting down** repairs an array that is ordered but for the edges below `idx`. -/
theorem heapSiftDownIdx_spec (hswap : SwapSpec elems swap P) {s : σ} {idx : ℕ} (hP : P s)
    (h : OrderedDown (fun x y => lt x y) (elems s) idx) :
    ∃ s', heapSiftDownIdx elems lt swap s idx = some s' ∧ P s' ∧
      Ordered (fun x y => lt x y) (elems s') ∧ (elems s').Perm (elems s) :=
  heapSiftDownLoop_spec hswap hP h (by omega) (by omega)

end spec

/-! ### Sifts that return

An exchange may fail, when an entry names an event that is not there. A sift that returns
has then sifted the array all the same. -/

section returns

variable {σ α : Type} {elems : σ → List α} {lt : α → α → Bool} {swap : ℕ → ℕ → σ → Option σ}
  {P : σ → Prop}

/-- An exchange that succeeds exchanges two elements, and keeps `P`. -/
def SwapReturns (elems : σ → List α) (swap : ℕ → ℕ → σ → Option σ) (P : σ → Prop) : Prop :=
  ∀ s s' i j, P s → swap i j s = some s' → P s' ∧ elems s' = swapAt (elems s) i j

/-- The exchange of a list alone. -/
def swapList (i j : ℕ) (l : List α) : Option (List α) := some (swapAt l i j)

/-- Exchanging two elements of a list writes nothing else. -/
theorem swapSpec_list : SwapSpec (α := α) id swapList fun _ => True :=
  fun _ _ _ _ _ _ => ⟨_, rfl, trivial, rfl⟩

/-- Sifting up a state sifts up its array. -/
theorem heapSiftUpLoop_view (hswap : SwapReturns elems swap P) {fuel : ℕ} {s s' : σ} {idx : ℕ}
    (hP : P s) (h : heapSiftUpLoop elems lt swap fuel s idx = some s') :
    P s' ∧ heapSiftUpLoop id lt swapList fuel (elems s) idx = some (elems s') := by
  induction fuel generalizing s idx with
  | zero => cases h
  | succ fuel ih =>
      by_cases h0 : idx = 0
      · simp only [heapSiftUpLoop, h0, if_true, Option.some.injEq] at h
        subst h
        exact ⟨hP, by simp [heapSiftUpLoop, h0]⟩
      · simp only [heapSiftUpLoop, if_neg h0] at h
        obtain ⟨x, hx, h⟩ := Option.bind_eq_some_iff.mp h
        obtain ⟨y, hy, h⟩ := Option.bind_eq_some_iff.mp h
        cases hlt : lt x y with
        | false =>
            simp only [hlt, Bool.false_eq_true, if_false, Option.some.injEq] at h
            subst h
            exact ⟨hP, by simp [heapSiftUpLoop, h0, hx, hy, hlt]⟩
        | true =>
            simp only [hlt, if_true] at h
            obtain ⟨s₁, h₁, h⟩ := Option.bind_eq_some_iff.mp h
            obtain ⟨hP₁, hel⟩ := hswap s s₁ _ _ hP h₁
            obtain ⟨hP', e'⟩ := ih hP₁ h
            refine ⟨hP', ?_⟩
            rw [hel] at e'
            simp [heapSiftUpLoop, h0, hx, hy, hlt, swapList, e']

/-- Sifting down a state sifts down its array. -/
theorem heapSiftDownLoop_view (hswap : SwapReturns elems swap P) {fuel : ℕ} {s s' : σ} {idx : ℕ}
    (hP : P s) (h : heapSiftDownLoop elems lt swap fuel s idx = some s') :
    P s' ∧ heapSiftDownLoop id lt swapList fuel (elems s) idx = some (elems s') := by
  induction fuel generalizing s idx with
  | zero => cases h
  | succ fuel ih =>
      by_cases hleaf : (elems s).length ≤ left idx
      · simp only [heapSiftDownLoop, if_pos hleaf, Option.some.injEq] at h
        subst h
        exact ⟨hP, by simp [heapSiftDownLoop, hleaf]⟩
      · simp only [heapSiftDownLoop, if_neg hleaf] at h
        obtain ⟨min, hmin, h⟩ := Option.bind_eq_some_iff.mp h
        by_cases hne : min = idx
        · simp only [hne, ne_eq, not_true_eq_false, if_false, Option.some.injEq] at h
          subst h
          exact ⟨hP, by simp [heapSiftDownLoop, hleaf, hmin, hne]⟩
        · simp only [ne_eq, hne, not_false_eq_true, if_true] at h
          obtain ⟨s₁, h₁, h⟩ := Option.bind_eq_some_iff.mp h
          obtain ⟨hP₁, hel⟩ := hswap s s₁ _ _ hP h₁
          obtain ⟨hP', e'⟩ := ih hP₁ h
          refine ⟨hP', ?_⟩
          rw [hel] at e'
          simp [heapSiftDownLoop, hleaf, hmin, hne, swapList, e']

/-- Sifting down permutes the array, ordered or not. -/
theorem heapSiftDownLoop_perm (hswap : SwapReturns elems swap P) {fuel : ℕ} {s s' : σ} {idx : ℕ}
    (hP : P s) (h : heapSiftDownLoop elems lt swap fuel s idx = some s') :
    P s' ∧ (elems s').Perm (elems s) := by
  induction fuel generalizing s idx with
  | zero => cases h
  | succ fuel ih =>
      simp only [heapSiftDownLoop] at h
      split at h
      · exact Option.some.inj h ▸ ⟨hP, .refl _⟩
      · obtain ⟨min, -, h⟩ := Option.bind_eq_some_iff.mp h
        split at h
        · obtain ⟨s₁, h₁, h⟩ := Option.bind_eq_some_iff.mp h
          obtain ⟨hP₁, hel⟩ := hswap s s₁ _ _ hP h₁
          obtain ⟨hP', hp⟩ := ih hP₁ h
          exact ⟨hP', hp.trans (hel ▸ swapAt_perm _ _ _)⟩
        · exact Option.some.inj h ▸ ⟨hP, .refl _⟩

/-- **The root stays** where it is when the element that is sifted up is not less. -/
theorem heapSiftUpLoop_root (hswap : SwapReturns elems swap P) {fuel : ℕ} {s s' : σ} {idx : ℕ}
    {x r : α} (hP : P s) (hidx : idx ≠ 0) (hx : (elems s)[idx]? = some x)
    (hr : (elems s)[0]? = some r) (hlt : lt x r = false)
    (h : heapSiftUpLoop elems lt swap fuel s idx = some s') : (elems s')[0]? = some r := by
  induction fuel generalizing s idx with
  | zero => cases h
  | succ fuel ih =>
      simp only [heapSiftUpLoop, if_neg hidx, hx, bind, Option.bind_some] at h
      obtain ⟨y, hy, h⟩ := Option.bind_eq_some_iff.mp h
      cases hxy : lt x y with
      | false =>
          simp only [hxy, Bool.false_eq_true, if_false, Option.some.injEq] at h
          exact h ▸ hr
      | true =>
          simp only [hxy, if_true] at h
          obtain ⟨s₁, h₁, h⟩ := Option.bind_eq_some_iff.mp h
          obtain ⟨hP₁, hel⟩ := hswap s s₁ _ _ hP h₁
          -- the parent is not the root, since `x` is not less than that
          have hup : up idx ≠ 0 := by
            intro h0
            rw [h0, hr] at hy
            obtain rfl := Option.some.inj hy
            rw [hlt] at hxy
            cases hxy
          have hl := (List.getElem?_eq_some_iff.mp hx).1
          have hl' := (List.getElem?_eq_some_iff.mp hy).1
          refine ih hP₁ hup ?_ ?_ h
          · rw [hel, getElem?_swapAt hl' hl, if_pos rfl, hx]
          · rw [hel, getElem?_swapAt hl' hl, if_neg (Ne.symm hup), if_neg (Ne.symm hidx), hr]

variable [IsStrictWeakOrder α fun x y => lt x y]

/-- **A sift up that returns** has permuted the array, and repaired it if only the edge above
`idx` was unordered. -/
theorem heapSiftUpIdx_returns (hswap : SwapReturns elems swap P) {s s' : σ} {idx : ℕ} (hP : P s)
    (hidx : idx < (elems s).length) (h : heapSiftUpIdx elems lt swap s idx = some s') :
    P s' ∧ (elems s').Perm (elems s) ∧
      (OrderedUp (fun x y => lt x y) (elems s) idx → Ordered (fun x y => lt x y) (elems s')) := by
  obtain ⟨hP', e'⟩ := heapSiftUpLoop_view hswap hP h
  obtain ⟨l, hl, -, hp'⟩ := heapSiftUpIdx_total lt swapSpec_list (elems s) trivial hidx
  obtain rfl : elems s' = l := Option.some.inj (e'.symm.trans hl)
  refine ⟨hP', hp', fun ho => ?_⟩
  obtain ⟨l, hl', -, ho', -⟩ := heapSiftUpIdx_spec swapSpec_list trivial hidx ho
  obtain rfl : elems s' = l := Option.some.inj (hl.symm.trans hl')
  exact ho'

/-- **A sift down that returns** has repaired the array. -/
theorem heapSiftDownIdx_returns (hswap : SwapReturns elems swap P) {s s' : σ} {idx : ℕ} (hP : P s)
    (ho : OrderedDown (fun x y => lt x y) (elems s) idx)
    (h : heapSiftDownIdx elems lt swap s idx = some s') :
    P s' ∧ Ordered (fun x y => lt x y) (elems s') ∧ (elems s').Perm (elems s) := by
  obtain ⟨hP', e'⟩ := heapSiftDownLoop_view hswap hP h
  obtain ⟨l, hl, -, ho', hp'⟩ := heapSiftDownIdx_spec swapSpec_list trivial ho
  obtain rfl : elems s' = l := Option.some.inj (e'.symm.trans hl)
  exact ⟨hP', ho', hp'⟩

end returns

/-! ### Accesses -/

section accesses

variable {σ α : Type} (elems : σ → List α) (lt : α → α → Bool) (swap : ℕ → ℕ → σ → Option σ)

/-- The positions that the loop of `heap_sift_up_idx` takes with `dynarr_at`: the parent, in
every round. -/
def siftUpAccesses : ℕ → σ → ℕ → List ℕ
  | 0, _, _ => []
  | fuel + 1, s, idx =>
      if idx = 0 then []
      else up idx :: Option.getD (do
        let currElem ← (elems s)[idx]?
        let parentElem ← (elems s)[up idx]?
        if lt currElem parentElem then
          let s ← swap (up idx) idx s
          some (siftUpAccesses fuel s (up idx))
        else none) []

/-- The positions that the loop of `heap_sift_down_idx` takes: the left child, and the right one
where there is one. -/
def siftDownAccesses : ℕ → σ → ℕ → List ℕ
  | 0, _, _ => []
  | fuel + 1, s, idx =>
      if (elems s).length ≤ left idx then []
      else left idx :: (if left idx + 1 < (elems s).length then [left idx + 1] else []) ++
        Option.getD (do
          let min ← minIdx lt (elems s) idx
          if min ≠ idx then
            let s ← swap min idx s
            some (siftDownAccesses fuel s min)
          else none) []

variable {elems lt swap} {P : σ → Prop}

/-- **Sifting up stays in the array.** -/
theorem siftUpAccesses_lt (hswap : SwapSpec elems swap P) {fuel : ℕ} {s : σ} {idx : ℕ} (hP : P s)
    (hidx : idx < (elems s).length) :
    ∀ i ∈ siftUpAccesses elems lt swap fuel s idx, i < (elems s).length := by
  induction fuel generalizing s idx with
  | zero => simp [siftUpAccesses]
  | succ fuel ih =>
      intro i hi
      rw [siftUpAccesses] at hi
      split at hi
      next => cases hi
      next h0 =>
        have hup := up_lt h0
        obtain ⟨x, hx⟩ := exists_getElem? hidx
        obtain ⟨y, hy⟩ := exists_getElem? (l := elems s) (i := up idx) (by omega)
        obtain ⟨s₁, e₁, hP₁, hel⟩ := hswap s (up idx) idx hP (by omega) hidx
        simp only [hx, hy, e₁, bind, Option.bind_some, List.mem_cons] at hi
        rcases hi with rfl | hi
        · omega
        · split at hi
          next =>
            have hlen : up idx < (elems s₁).length := by
              rw [hel, length_swapAt]
              omega
            have hlt := ih hP₁ hlen i hi
            rwa [hel, length_swapAt] at hlt
          next => cases hi

/-- **Sifting down stays in the array.** -/
theorem siftDownAccesses_lt [IsStrictWeakOrder α fun x y => lt x y]
    (hswap : SwapSpec elems swap P) {fuel : ℕ} {s : σ} {idx : ℕ} (hP : P s) :
    ∀ i ∈ siftDownAccesses elems lt swap fuel s idx, i < (elems s).length := by
  induction fuel generalizing s idx with
  | zero => simp [siftDownAccesses]
  | succ fuel ih =>
      intro i hi
      rw [siftDownAccesses] at hi
      split at hi
      next => cases hi
      next hleaf =>
        simp only [List.cons_append, List.mem_cons, List.mem_append] at hi
        rcases hi with rfl | hi | hi
        · omega
        · split at hi
          next hright =>
            rw [List.mem_singleton] at hi
            omega
          next => cases hi
        · obtain ⟨j, hj, hcase⟩ := minIdx_spec lt (Nat.lt_of_not_le hleaf)
          rcases hcase with ⟨rfl, -⟩ | ⟨hji, -, -, x, y, hx, hy, -⟩
          · simp [hj] at hi
          · have hjl := (List.getElem?_eq_some_iff.mp hx).1
            have hil := (List.getElem?_eq_some_iff.mp hy).1
            obtain ⟨s₁, e₁, hP₁, hel⟩ := hswap s j idx hP hjl hil
            simp only [hj, e₁, bind, Option.bind_some, ne_eq, hji, not_false_eq_true, if_true,
              Option.getD_some] at hi
            have hlt := ih hP₁ i hi
            rwa [hel, length_swapAt] at hlt

variable [IsStrictWeakOrder α fun x y => lt x y]

/-- **Both sifts repair the heap.** For every array, every strict weak order and every position,
an array that is a heap but for the edge above the position is sifted up, and one that is a heap
but for the edges below it is sifted down, to a heap of the same elements. Both loops end, and
take no position outside of the array. -/
theorem heapSift_repairs (hswap : SwapSpec elems swap P) {s : σ} {idx : ℕ} (hP : P s)
    (hidx : idx < (elems s).length) :
    (OrderedUp (fun x y => lt x y) (elems s) idx →
      ∃ s', heapSiftUpIdx elems lt swap s idx = some s' ∧ P s' ∧
        Ordered (fun x y => lt x y) (elems s') ∧ (elems s').Perm (elems s) ∧
        ∀ i ∈ idx :: siftUpAccesses elems lt swap (idx + 1) s idx, i < (elems s).length) ∧
    (OrderedDown (fun x y => lt x y) (elems s) idx →
      ∃ s', heapSiftDownIdx elems lt swap s idx = some s' ∧ P s' ∧
        Ordered (fun x y => lt x y) (elems s') ∧ (elems s').Perm (elems s) ∧
        ∀ i ∈ idx :: siftDownAccesses elems lt swap ((elems s).length + 1) s idx,
          i < (elems s).length) := by
  constructor
  · intro h
    obtain ⟨s', hrun, hP', hord, hperm⟩ := heapSiftUpIdx_spec hswap hP hidx h
    refine ⟨s', hrun, hP', hord, hperm, fun i hi => ?_⟩
    rcases List.mem_cons.mp hi with rfl | hi
    · exact hidx
    · exact siftUpAccesses_lt hswap hP hidx i hi
  · intro h
    obtain ⟨s', hrun, hP', hord, hperm⟩ := heapSiftDownIdx_spec hswap hP h
    refine ⟨s', hrun, hP', hord, hperm, fun i hi => ?_⟩
    rcases List.mem_cons.mp hi with rfl | hi
    · exact hidx
    · exact siftDownAccesses_lt hswap hP i hi

/-- The last element of an array goes up to the root, and the first one goes down to a leaf. -/
theorem heapSift_repairs_small :
    (∃ l, heapSiftUpIdx id (fun x y : ℕ => decide (x < y)) swapList [2, 5, 4, 1] 3 = some l ∧
      Ordered (fun x y : ℕ => decide (x < y)) l ∧ l.Perm [2, 5, 4, 1]) ∧
    ∃ l, heapSiftDownIdx id (fun x y : ℕ => decide (x < y)) swapList [9, 2, 4, 5] 0 = some l ∧
      Ordered (fun x y : ℕ => decide (x < y)) l ∧ l.Perm [9, 2, 4, 5] := by
  have horder : IsStrictWeakOrder ℕ fun x y => decide (x < y) = true :=
    { irrefl := by simp
      trans := by simpa using fun _ _ _ => Nat.lt_trans
      incomp_trans := by
        simp only [decide_eq_true_eq]
        omega }
  have hup : OrderedUp (fun x y : ℕ => decide (x < y)) [2, 5, 4, 1] 3 := by
    refine ⟨fun i x y h0 hne hx hy => ?_, fun _ i x y h0 hup hx hy => ?_⟩
    all_goals rcases i with _ | _ | _ | _ | i <;> simp_all [up]
    all_goals omega
  have hdown : OrderedDown (fun x y : ℕ => decide (x < y)) [9, 2, 4, 5] 0 := by
    refine ⟨fun i x y h0 hne hx hy => ?_, fun h0 => absurd rfl h0⟩
    rcases i with _ | _ | _ | _ | i <;> simp_all [up]
    omega
  obtain ⟨l, hl, -, hord, hperm, -⟩ :=
    (heapSift_repairs (s := [2, 5, 4, 1]) swapSpec_list trivial (show 3 < 4 by decide)).1 hup
  obtain ⟨l', hl', -, hord', hperm', -⟩ :=
    (heapSift_repairs (s := [9, 2, 4, 5]) swapSpec_list trivial (show 0 < 4 by decide)).2 hdown
  exact ⟨⟨l, hl, hord, hperm⟩, l', hl', hord', hperm'⟩

end accesses

end IoEngine
