import Mathlib.Data.Nat.Log
import IoEngine.Deadlines

/-!
# How Long a Sift Takes

The loops of `heaputils.c` go up or down one level of the heap a round. This module takes a loop
apart into its rounds, so that a loop that has not ended is told from one that has failed, and
shows that every sift has ended after at most one round a level, whatever is compared, and
whatever else the exchange does.

## Main results

* `heapSiftUpLoop_eq`, `heapSiftDownLoop_eq`: **the loops consist of these rounds**.
* `endsWithin_up`, `endsWithin_down`: a sift has ended **within one round a level**.
* `service_sifts_rounds`: the sifts of the two heaps of a service, in whatever state, take at most
  **`log₂ n + 1` rounds** in a heap of `n` entries.
-/

open BinHeap

namespace IoEngine

open Svc

/-! ### Rounds -/

section

variable {σ : Type}

/-- How a loop stands after some rounds: it has returned, it has failed, or it goes on. -/
inductive SiftEnd (σ : Type)
  | returned (s : σ)
  | failed
  | unfinished

/-- What the loop has returned. -/
def SiftEnd.result : SiftEnd σ → Option σ
  | .returned s => some s
  | .failed | .unfinished => none

/-- Make at most so many rounds. A round fails, leaves the loop, or goes on to another position. -/
def siftRounds (round : σ → ℕ → Option (σ ⊕ σ × ℕ)) : ℕ → σ → ℕ → SiftEnd σ
  | 0, _, _ => .unfinished
  | k + 1, s, idx =>
      match round s idx with
      | none => .failed
      | some (.inl s) => .returned s
      | some (.inr (s, idx)) => siftRounds round k s idx

variable {round : σ → ℕ → Option (σ ⊕ σ × ℕ)} {s : σ} {idx : ℕ}

/-- **A loop ends** if a measure decreases from each round to the next. -/
theorem siftRounds_ends {m : σ → ℕ → ℕ}
    (hdec : ∀ s idx s' idx', round s idx = some (.inr (s', idx')) → m s' idx' < m s idx) {k : ℕ}
    (hk : m s idx < k) : siftRounds round k s idx ≠ .unfinished := by
  induction k generalizing s idx with
  | zero => exact absurd hk (Nat.not_lt_zero _)
  | succ k ih =>
      rw [siftRounds]
      split
      next => simp
      next => simp
      next s' idx' hround =>
        have hlt := hdec s idx s' idx' hround
        exact ih (by omega)

/-- Where the loop has ended, more rounds make no difference. -/
theorem siftRounds_of_le {k k' : ℕ} (hend : siftRounds round k s idx ≠ .unfinished)
    (hle : k ≤ k') : siftRounds round k' s idx = siftRounds round k s idx := by
  induction k generalizing s idx k' with
  | zero => exact absurd rfl hend
  | succ k ih =>
      obtain ⟨k', rfl⟩ : ∃ j, k' = j + 1 := ⟨k' - 1, by omega⟩
      rw [siftRounds] at hend ⊢
      rw [siftRounds]
      split
      next => rfl
      next => rfl
      next s' idx' hround =>
        rw [hround] at hend
        exact ih hend (by omega)

/-- **A sift ends within `k` rounds**: by then it has returned or failed, and this is what it
gives. -/
structure EndsWithin (round : σ → ℕ → Option (σ ⊕ σ × ℕ)) (k : ℕ) (s : σ) (idx : ℕ)
    (sift : Option σ) : Prop where
  ends : siftRounds round k s idx ≠ .unfinished
  result : sift = (siftRounds round k s idx).result

end

section

variable {σ α : Type} {elems : σ → List α} {lt : α → α → Bool} {swap : ℕ → ℕ → σ → Option σ}
  {s : σ} {idx : ℕ}

/-! ### Going up -/

/-- A round of `heap_sift_up_idx`. -/
def upRound (elems : σ → List α) (lt : α → α → Bool) (swap : ℕ → ℕ → σ → Option σ) (s : σ)
    (idx : ℕ) : Option (σ ⊕ σ × ℕ) :=
  if idx = 0 then some (.inl s)
  else do
    let currElem ← (elems s)[idx]?
    let parentElem ← (elems s)[up idx]?
    if lt currElem parentElem then (swap (up idx) idx s).map fun s => .inr (s, up idx)
    else some (.inl s)

/-- The loop of `heap_sift_up_idx` consists of rounds. -/
theorem heapSiftUpLoop_eq (fuel : ℕ) (s : σ) (idx : ℕ) :
    heapSiftUpLoop elems lt swap fuel s idx =
      (siftRounds (upRound elems lt swap) fuel s idx).result := by
  induction fuel generalizing s idx with
  | zero => rfl
  | succ fuel ih =>
      rw [heapSiftUpLoop, siftRounds, upRound]
      by_cases h0 : idx = 0
      · rw [if_pos h0, if_pos h0]
        rfl
      rw [if_neg h0, if_neg h0]
      cases hx : (elems s)[idx]? with
      | none => rfl
      | some x =>
          cases hy : (elems s)[up idx]? with
          | none => rfl
          | some y =>
              cases hlt : lt x y with
              | false => simp [SiftEnd.result, hlt]
              | true =>
                  cases hswap : swap (up idx) idx s with
                  | none => simp [SiftEnd.result, hlt]
                  | some s' => simp [hlt, ih]

/-- The level of a position decreases on the way up. -/
theorem log_up {i : ℕ} (h : i ≠ 0) : Nat.log 2 (up i + 1) + 1 = Nat.log 2 (i + 1) := by
  have hhalf : up i + 1 = (i + 1) / 2 := by
    unfold up
    omega
  rw [hhalf, Nat.log_div_base, Nat.sub_add_cancel]
  exact Nat.log_pos (by omega) (by omega)

/-- A round on the way up goes to the parent. -/
theorem eq_up_of_upRound {s' : σ} {idx' : ℕ}
    (h : upRound elems lt swap s idx = some (.inr (s', idx'))) : idx ≠ 0 ∧ idx' = up idx := by
  unfold upRound at h
  split at h
  next => simp at h
  next h0 =>
    obtain ⟨x, -, h⟩ := Option.bind_eq_some_iff.mp h
    obtain ⟨y, -, h⟩ := Option.bind_eq_some_iff.mp h
    split at h
    next =>
      obtain ⟨s₁, -, heq⟩ := Option.map_eq_some_iff.mp h
      exact ⟨h0, (Prod.mk.inj (Sum.inr.inj heq)).2.symm⟩
    next => simp at h

/-- **Sifting up** makes no more rounds than there are levels in the heap. -/
theorem endsWithin_up (hidx : idx < (elems s).length) :
    EndsWithin (upRound elems lt swap) (Nat.log 2 (elems s).length + 1) s idx
      (heapSiftUpIdx elems lt swap s idx) := by
  have hlog := Nat.log_mono_right (b := 2) (Nat.succ_le_of_lt hidx)
  have hself := Nat.log_lt_self 2 (Nat.succ_ne_zero idx)
  simp only [Nat.succ_eq_add_one] at hlog hself
  have hends : siftRounds (upRound elems lt swap) (Nat.log 2 (idx + 1) + 1) s idx ≠
      .unfinished := by
    refine siftRounds_ends (m := fun _ i => Nat.log 2 (i + 1)) ?_ (Nat.lt_succ_self _)
    intro s i s' i' hround
    obtain ⟨h0, rfl⟩ := eq_up_of_upRound hround
    have := log_up h0
    omega
  have hmore := siftRounds_of_le hends (Nat.succ_le_succ hlog)
  refine ⟨by rwa [hmore], ?_⟩
  rw [heapSiftUpIdx, heapSiftUpLoop_eq, siftRounds_of_le hends hself, hmore]

/-! ### Going down -/

/-- A round of `heap_sift_down_idx`. -/
def downRound (elems : σ → List α) (lt : α → α → Bool) (swap : ℕ → ℕ → σ → Option σ) (s : σ)
    (idx : ℕ) : Option (σ ⊕ σ × ℕ) :=
  if (elems s).length ≤ left idx then some (.inl s)
  else do
    let min ← minIdx lt (elems s) idx
    if min ≠ idx then (swap min idx s).map fun s => .inr (s, min) else some (.inl s)

/-- The loop of `heap_sift_down_idx` consists of rounds. -/
theorem heapSiftDownLoop_eq (fuel : ℕ) (s : σ) (idx : ℕ) :
    heapSiftDownLoop elems lt swap fuel s idx =
      (siftRounds (downRound elems lt swap) fuel s idx).result := by
  induction fuel generalizing s idx with
  | zero => rfl
  | succ fuel ih =>
      rw [heapSiftDownLoop, siftRounds, downRound]
      by_cases hleaf : (elems s).length ≤ left idx
      · rw [if_pos hleaf, if_pos hleaf]
        rfl
      rw [if_neg hleaf, if_neg hleaf]
      cases hmin : minIdx lt (elems s) idx with
      | none => rfl
      | some j =>
          by_cases hj : j = idx
          · simp [SiftEnd.result, hj]
          · cases hswap : swap j idx s with
            | none => simp [SiftEnd.result, hj, hswap]
            | some s' => simp [hj, hswap, ih]

/-- An exchange that succeeds leaves as many elements. -/
def SwapLength (elems : σ → List α) (swap : ℕ → ℕ → σ → Option σ) : Prop :=
  ∀ s s' i j, swap i j s = some s' → (elems s').length = (elems s).length

/-- Where the loop goes on is a child. -/
theorem left_le_of_minIdx {l : List α} {j : ℕ} (h : minIdx lt l idx = some j) (hj : j ≠ idx) :
    left idx ≤ j := by
  unfold minIdx at h
  obtain ⟨x, -, h⟩ := Option.bind_eq_some_iff.mp h
  obtain ⟨y, -, h⟩ := Option.bind_eq_some_iff.mp h
  cases hlt : lt y x with
  | true =>
      simp only [hlt, if_true] at h
      split at h
      · exact Nat.le_of_eq (Option.some.inj h)
      · have hmin := Option.some.inj h
        split at hmin <;> omega
  | false =>
      simp only [hlt, Bool.false_eq_true, if_false] at h
      split at h
      · exact absurd (Option.some.inj h).symm hj
      · have hmin := Option.some.inj h
        split at hmin <;> omega

/-- A child has at most half as many positions below it. -/
theorem log_left {n i j : ℕ} (hleaf : left i < n) (hj : left i ≤ j) :
    Nat.log 2 (n / (j + 1)) + 1 ≤ Nat.log 2 (n / (i + 1)) := by
  unfold left at hleaf hj
  have hhalf : n / (j + 1) ≤ n / (i + 1) / 2 := by
    rw [Nat.div_div_eq_div_mul]
    exact Nat.div_le_div_left (by omega) (by omega)
  have htwo : 2 ≤ n / (i + 1) := (Nat.le_div_iff_mul_le (by omega)).mpr (by omega)
  have hlog := Nat.log_mono_right (b := 2) hhalf
  rw [Nat.log_div_base] at hlog
  have hpos := Nat.log_pos (by omega : 1 < 2) htwo
  omega

/-- A round on the way down goes to a child, and leaves as many elements. -/
theorem left_le_of_downRound (hswap : SwapLength elems swap) {s' : σ} {idx' : ℕ}
    (h : downRound elems lt swap s idx = some (.inr (s', idx'))) :
    left idx < (elems s).length ∧ left idx ≤ idx' ∧ (elems s').length = (elems s).length := by
  unfold downRound at h
  split at h
  next => simp at h
  next hleaf =>
    obtain ⟨j, hmin, h⟩ := Option.bind_eq_some_iff.mp h
    split at h
    next hj =>
      obtain ⟨s₁, hs₁, heq⟩ := Option.map_eq_some_iff.mp h
      obtain ⟨rfl, rfl⟩ := Prod.mk.inj (Sum.inr.inj heq)
      exact ⟨Nat.lt_of_not_le hleaf, left_le_of_minIdx hmin hj, hswap _ _ _ _ hs₁⟩
    next => simp at h

/-- **Sifting down** makes no more rounds than there are levels in the heap. -/
theorem endsWithin_down (hswap : SwapLength elems swap) :
    EndsWithin (downRound elems lt swap) (Nat.log 2 (elems s).length + 1) s idx
      (heapSiftDownIdx elems lt swap s idx) := by
  have hlog := Nat.log_mono_right (b := 2) (Nat.div_le_self (elems s).length (idx + 1))
  have hself := Nat.log_le_self 2 (elems s).length
  have hends : siftRounds (downRound elems lt swap) (Nat.log 2 (elems s).length + 1) s idx ≠
      .unfinished := by
    refine siftRounds_ends (m := fun s i => Nat.log 2 ((elems s).length / (i + 1))) ?_ (by omega)
    intro s i s' i' hround
    obtain ⟨hleaf, hle, hlen⟩ := left_le_of_downRound hswap hround
    have := log_left hleaf hle
    rw [hlen]
    omega
  refine ⟨hends, ?_⟩
  rw [heapSiftDownIdx, heapSiftDownLoop_eq, siftRounds_of_le hends (by omega)]

end

/-! ### The heaps of a service -/

section

variable {τ : Type}

/-- Exchanging two timed events keeps the length of the heap. -/
theorem swapLength_timed : SwapLength (Svc.timed (τ := τ)) asyncHpEntSwp := by
  intro s s' i j h
  rw [(asyncHpEntSwp_returns s s s' i j (.refl s) h).2, length_swapAt]

/-- Exchanging two delayed handlers keeps the length of the heap. -/
theorem swapLength_delays : SwapLength (α := DelayHeapEntry) id delayHpEntSwp := by
  intro l l' i j h
  obtain rfl := Option.some.inj h
  exact length_swapAt l i j

/-- **Every sift of a service takes logarithmic time** in the number of its timed events, or of its
delayed handlers, whatever state it is in: the loops have returned, or failed for want of a node or
an entry, within one round a level. -/
theorem service_sifts_rounds (s : Svc τ) (l : List DelayHeapEntry) {i j : ℕ}
    (hi : i < s.timed.length) (hj : j < l.length) :
    EndsWithin (upRound Svc.timed asyncHpEntLt asyncHpEntSwp) (Nat.log 2 s.timed.length + 1) s i
        (siftUpTimed s i) ∧
      EndsWithin (downRound Svc.timed asyncHpEntLt asyncHpEntSwp) (Nat.log 2 s.timed.length + 1) s i
        (siftDownTimed s i) ∧
      EndsWithin (upRound id delayHpEntLt delayHpEntSwp) (Nat.log 2 l.length + 1) l j
        (heapSiftUpIdx id delayHpEntLt delayHpEntSwp l j) ∧
      EndsWithin (downRound id delayHpEntLt delayHpEntSwp) (Nat.log 2 l.length + 1) l j
        (heapSiftDownIdx id delayHpEntLt delayHpEntSwp l j) :=
  ⟨endsWithin_up hi, endsWithin_down swapLength_timed, endsWithin_up hj,
    endsWithin_down swapLength_delays⟩

end

/-- Three delayed handlers: the last one comes to the front, and the loop ends in its second
round. -/
theorem service_sifts_rounds_three : ∃ l : List DelayHeapEntry,
    siftRounds (upRound id delayHpEntLt delayHpEntSwp) 2
      [⟨5, .zero, none⟩, ⟨9, .zero, none⟩, ⟨2, .zero, none⟩] 2 = .returned l ∧
      heapSiftUpIdx id delayHpEntLt delayHpEntSwp
        [⟨5, .zero, none⟩, ⟨9, .zero, none⟩, ⟨2, .zero, none⟩] 2 = some l ∧
      l.map (·.deadline) = [2, 9, 5] := by
  let e : AsyncHeapEntry := ⟨7, 0, 0, .read⟩
  let s : Svc FdMap := (iosvcCreate ⟨fun _ => true, 0⟩ 0 (fun _ => 0) fun _ => .ok : Svc FdMap)
  obtain ⟨-, -, hup, -⟩ := service_sifts_rounds (s.setTimed [e])
    [⟨5, .zero, none⟩, ⟨9, .zero, none⟩, ⟨2, .zero, none⟩] (i := 0) (j := 2) (by decide)
    (by decide)
  exact ⟨_, rfl, hup.result, rfl⟩

end IoEngine
