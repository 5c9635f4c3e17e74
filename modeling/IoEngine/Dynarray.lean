import Mathlib.Algebra.Ring.Nat
import IoEngine.Lib.Blocks
import IoEngine.IoTypes

/-!
# The Dynamic Array

This module embeds `dynarray.c` and `dynarray.h`, the arrays of the `pollfd`s and of the two heaps.
An array is a block of bytes with room for `capacity` objects; pointers into it are offsets here,
and reading and writing outside of the block fails.

A run of calls yields a list of events, as in `CircularBuffer`, and the array refines a list if
these are events of a list. Beside its fields an array counts the bytes that `realloc` has had to
move.

## Main results

* `DynarrInv.run_step`: **one call** keeps the array in order, and does to its contents what the
  list does.
* `dynarr_refines_list`: **the array refines a list**, over every run, and the bytes moved are at
  most twice those of the objects that were added.
* `Models.emplaceBack`: the service's model of its arrays, `DynArray`, is an abstraction of this
  one.
-/

open Blocks

namespace IoEngine

/-! ### The array -/

/-- `dynarray`. -/
structure DynarrMem where
  data : Option (List UInt8)
  nelems : ℕ
  capacity : ℕ
  objSize : ℕ
  /-- ghost: how many bytes `realloc` has moved -/
  moved : ℕ

namespace DynarrMem

/-- The bytes of the block. -/
def bytes (dar : DynarrMem) : List UInt8 := dar.data.getD []

/-- The object at an offset. -/
def load (dar : DynarrMem) (pos : ℕ) : Option (List UInt8) :=
  if pos + dar.objSize ≤ dar.bytes.length then some ((dar.bytes.drop pos).take dar.objSize)
  else none

/-- An object is assigned to an offset. -/
def store (dar : DynarrMem) (pos : ℕ) (x : List UInt8) : Option DynarrMem :=
  if pos + x.length ≤ dar.bytes.length then
    some { dar with data := some (overwrite dar.bytes pos x) }
  else none

/-- **The contents**: the first `nelems` objects of the block. -/
def contents (dar : DynarrMem) : List (List UInt8) :=
  (List.range dar.nelems).map (block dar.bytes dar.objSize)

end DynarrMem

/-- `dynarr_init`. -/
def dynarrInit (objSize : ℕ) : DynarrMem := ⟨none, 0, 0, objSize, 0⟩

/-- `dynarr_at`. -/
def dynarrAt (dar : DynarrMem) (idx : ℕ) : ℕ := idx * dar.objSize

/-- `dynarr_back`. -/
def dynarrBack (dar : DynarrMem) : ℕ := dynarrAt dar (dar.nelems - 1)

/-- `dynarr_end`. -/
def dynarrEnd (dar : DynarrMem) : ℕ := dynarrAt dar dar.nelems

/-- `dynarr_pop_back`. -/
def dynarrPopBack (dar : DynarrMem) : DynarrMem := { dar with nelems := dar.nelems - 1 }

/-- `dynarr_clear`. -/
def dynarrClear (dar : DynarrMem) : DynarrMem := { dar with nelems := 0 }

/-- What `realloc` makes of a block: its bytes as far as they fit, and then `fill`. -/
def reallocBytes (data : List UInt8) (size : ℕ) (fill : ℕ → UInt8) : List UInt8 :=
  data.take size ++ (List.range (size - data.length)).map fill

/-- The end of `dynarr_emplace_back`: the slot behind the last object is returned. -/
def dynarrTake (dar : DynarrMem) : Option ℕ × DynarrMem :=
  (some (dynarrEnd dar), { dar with nelems := dar.nelems + 1 })

/-- The array after a successful `realloc` in `dynarr_emplace_back`. -/
def dynarrGrow (dar : DynarrMem) (fill : ℕ → UInt8) : DynarrMem :=
  let newCapacity := max (2 * dar.capacity) 1
  let newSize := dar.objSize * newCapacity
  { dar with
    data := some (reallocBytes dar.bytes newSize fill)
    capacity := newCapacity
    moved := dar.moved + dar.bytes.length }

/-- `dynarr_emplace_back`: the slot, or `NULL`. What `realloc` adds to the block is anything, and
it is `none` when `realloc` fails. -/
def dynarrEmplaceBack (dar : DynarrMem) (realloc : Option (ℕ → UInt8)) :
    Option ℕ × DynarrMem :=
  if dar.nelems = dar.capacity then
    match realloc with
    | none => (none, dar)
    | some fill => dynarrTake (dynarrGrow dar fill)
  else dynarrTake dar

/-! ### Runs -/

/-- An object of `n` bytes. -/
abbrev DynarrObj (n : ℕ) : Type := { x : List UInt8 // x.length = n }

/-- A use of the array; an object is assigned to the slot that `dynarr_emplace_back` returns. -/
inductive DynarrOp (n : ℕ)
  | emplace (x : DynarrObj n) (realloc : Option (ℕ → UInt8))
  | assign (idx : ℕ) (x : DynarrObj n)
  | pop
  | clear

/-- What is seen of a list. -/
inductive ListEvent (α : Type)
  | added (x : α)
  | refused
  | assigned (idx : ℕ) (x : α)
  | popped (x : α)
  | cleared

/-- **The list**: the events that it can have, and what they leave. -/
def ListEvent.apply {α : Type} [DecidableEq α] (l : List α) : ListEvent α → Option (List α)
  | .added x => some (l ++ [x])
  | .refused => some l
  | .assigned idx x => if idx < l.length then some (l.set idx x) else none
  | .popped x => if l.getLast? = some x then some l.dropLast else none
  | .cleared => some []

/-- A list of events. -/
def listRun {α : Type} [DecidableEq α] (l : List α) : List (ListEvent α) → Option (List α)
  | [] => some l
  | ev :: evs => (ev.apply l).bind fun l => listRun l evs

/-- How many objects are added. -/
def ListEvent.adds {α : Type} : ListEvent α → ℕ
  | .added _ => 1
  | _ => 0

/-- Use the array. An index is below `dynarr_size`, and there is a `dynarr_pop_back` only of an
array that is not empty, whose last object is looked at before. -/
def DynarrOp.run {n : ℕ} (dar : DynarrMem) :
    DynarrOp n → Option (ListEvent (List UInt8) × DynarrMem)
  | .emplace x realloc =>
      match dynarrEmplaceBack dar realloc with
      | (none, dar) => some (.refused, dar)
      | (some slot, dar) => (dar.store slot x).map fun dar => (.added x, dar)
  | .assign idx x =>
      if idx < dar.nelems then
        (dar.store (dynarrAt dar idx) x).map fun dar => (.assigned idx x, dar)
      else none
  | .pop =>
      if dar.nelems = 0 then none
      else (dar.load (dynarrBack dar)).map fun x => (.popped x, dynarrPopBack dar)
  | .clear => some (.cleared, dynarrClear dar)

/-- Use the array again and again. -/
def dynarrRun {n : ℕ} (dar : DynarrMem) :
    List (DynarrOp n) → Option (List (ListEvent (List UInt8)) × DynarrMem)
  | [] => some ([], dar)
  | op :: ops => do
      let (ev, dar) ← op.run dar
      let (evs, dar) ← dynarrRun dar ops
      some (ev :: evs, dar)

/-! ### An array in order -/

/-- **An array in order** has room for `capacity` objects. What has been moved is what the blocks
before the present one held, which were full: of 1, 2, 4, … objects. -/
structure DynarrInv (n : ℕ) (dar : DynarrMem) : Prop where
  size : dar.objSize = n
  length : dar.bytes.length = dar.capacity * n
  room : dar.nelems ≤ dar.capacity
  moved : dar.moved = (dar.capacity - 1) * n

section

variable {n : ℕ} {dar : DynarrMem}

/-- A new array is in order. -/
theorem dynarrInv_init (n : ℕ) : DynarrInv n (dynarrInit n) :=
  ⟨rfl, by simp [dynarrInit, DynarrMem.bytes], le_rfl, by simp [dynarrInit]⟩

/-- The elements are as many as the array says. -/
@[simp] theorem length_contents (dar : DynarrMem) : dar.contents.length = dar.nelems := by
  simp [DynarrMem.contents]

/-- The elements are the blocks of the memory. -/
theorem getElem?_contents (dar : DynarrMem) (i : ℕ) : dar.contents[i]? =
    if i < dar.nelems then some (block dar.bytes dar.objSize i) else none := by
  rw [DynarrMem.contents, List.getElem?_map]
  split
  next hi => rw [List.getElem?_range hi, Option.map_some]
  next hi => rw [List.getElem?_eq_none (by simpa using hi), Option.map_none]

/-- **The objects of an array** are where `dynarr_at` points to. -/
theorem DynarrInv.load_at (h : DynarrInv n dar) {i : ℕ} (hi : i < dar.nelems) :
    dar.load (dynarrAt dar i) = dar.contents[i]? := by
  have hroom := h.room
  have hle : (i + 1) * n ≤ dar.capacity * n := Nat.mul_le_mul_right n (by omega)
  rw [Nat.succ_mul] at hle
  rw [DynarrMem.load, dynarrAt, h.size, h.length, if_pos hle, getElem?_contents, if_pos hi, h.size]
  rfl

/-- **Assigning to an object** changes no other one. -/
theorem DynarrInv.store_at (h : DynarrInv n dar) {i : ℕ} (hi : i < dar.capacity)
    {x : List UInt8} (hx : x.length = n) :
    ∃ dar', dar.store (dynarrAt dar i) x = some dar' ∧ DynarrInv n dar' ∧
      dar' = { dar with data := dar'.data } ∧ dar'.contents = dar.contents.set i x := by
  have hle : (i + 1) * n ≤ dar.bytes.length := by
    rw [h.length]
    exact Nat.mul_le_mul_right n hi
  have hlen : i * n + x.length ≤ dar.bytes.length := by
    rwa [hx, ← Nat.succ_mul]
  refine ⟨{ dar with data := some (overwrite dar.bytes (i * n) x) }, ?_, ⟨h.size, ?_, h.room,
    h.moved⟩, rfl, ?_⟩
  · rw [DynarrMem.store, dynarrAt, h.size, if_pos hlen]
  · exact (length_overwrite hlen).trans h.length
  · refine List.ext_getElem? fun j => ?_
    rw [List.getElem?_set, getElem?_contents, getElem?_contents, length_contents]
    show (if j < dar.nelems then some (block (overwrite dar.bytes (i * n) x) dar.objSize j)
      else none) = _
    rw [h.size]
    by_cases hij : i = j
    · rw [if_pos hij, ← hij, block_overwrite_self hle hx]
    · rw [if_neg hij, block_overwrite_of_ne hle hx (Ne.symm hij)]

/-- **Growing** a full array gives it twice the room, and the same contents. -/
theorem DynarrInv.grow (h : DynarrInv n dar) (hfull : dar.nelems = dar.capacity)
    (fill : ℕ → UInt8) :
    DynarrInv n (dynarrGrow dar fill) ∧ (dynarrGrow dar fill).contents = dar.contents ∧
      (dynarrGrow dar fill).nelems < (dynarrGrow dar fill).capacity := by
  have hbytes : dar.bytes.length ≤ dar.objSize * max (2 * dar.capacity) 1 := by
    rw [h.length, h.size, Nat.mul_comm n]
    exact Nat.mul_le_mul_right n (by omega)
  have hnew : (dynarrGrow dar fill).bytes = dar.bytes ++
      (List.range (dar.objSize * max (2 * dar.capacity) 1 - dar.bytes.length)).map fill := by
    show reallocBytes dar.bytes _ fill = _
    rw [reallocBytes, List.take_of_length_le hbytes]
  refine ⟨⟨h.size, ?_, ?_, ?_⟩, ?_, ?_⟩
  · rw [hnew, List.length_append, List.length_map, List.length_range,
      Nat.add_sub_cancel' hbytes, h.size, Nat.mul_comm n]
    rfl
  · show dar.nelems ≤ max (2 * dar.capacity) 1
    omega
  · show dar.moved + dar.bytes.length = (max (2 * dar.capacity) 1 - 1) * n
    rw [h.moved, h.length, ← Nat.add_mul]
    congr 1
    omega
  · refine List.map_congr_left fun i hi => List.ext_getElem? fun k => ?_
    have hi : i < dar.nelems := List.mem_range.mp hi
    show (block (dynarrGrow dar fill).bytes dar.objSize i)[k]? = _
    rw [getElem?_block, getElem?_block]
    split
    next hk =>
      have hle : (i + 1) * n ≤ dar.capacity * n := Nat.mul_le_mul_right n (by omega)
      rw [Nat.succ_mul] at hle
      rw [hnew, List.getElem?_append_left (by rw [h.length, h.size]; rw [h.size] at hk; omega)]
    next => rfl
  · show dar.nelems < max (2 * dar.capacity) 1
    omega

/-- **Taking a slot** where there is one, and assigning an object to it. -/
theorem DynarrInv.take (h : DynarrInv n dar) (hroom : dar.nelems < dar.capacity)
    {x : List UInt8} (hx : x.length = n) :
    ∃ dar', (dynarrTake dar).2.store (dynarrEnd dar) x = some dar' ∧ DynarrInv n dar' ∧
      dar' = { dar with data := dar'.data, nelems := dar.nelems + 1 } ∧
      dar'.contents = dar.contents ++ [x] := by
  have htaken : DynarrInv n (dynarrTake dar).2 := ⟨h.size, h.length, hroom, h.moved⟩
  obtain ⟨dar', hstore, hinv, hsame, hcont⟩ := htaken.store_at hroom hx
  refine ⟨dar', hstore, hinv, hsame, ?_⟩
  have hsucc : (dynarrTake dar).2.contents =
      dar.contents ++ [block dar.bytes dar.objSize dar.nelems] := by
    simp only [DynarrMem.contents, dynarrTake, List.range_succ, List.map_append]
    rfl
  rw [hcont, hsucc, List.set_append_right _ _ (by simp), length_contents, Nat.sub_self]
  rfl

/-! ### The calls -/

/-- **Adding an object**: it is refused and nothing changes, or it comes to the end. -/
theorem DynarrInv.emplace (h : DynarrInv n dar) (x : DynarrObj n)
    (realloc : Option (ℕ → UInt8)) :
    (realloc = none ∧ dar.nelems = dar.capacity ∧
      (DynarrOp.emplace x realloc).run dar = some (.refused, dar)) ∨
    ∃ dar', (DynarrOp.emplace x realloc).run dar = some (.added x, dar') ∧ DynarrInv n dar' ∧
      dar'.contents = dar.contents ++ [x.1] ∧ (dar.nelems = dar.capacity → realloc ≠ none) ∧
      dar'.capacity =
        if dar.nelems = dar.capacity then max (2 * dar.capacity) 1 else dar.capacity := by
  by_cases hfull : dar.nelems = dar.capacity
  · cases realloc with
    | none => exact .inl ⟨rfl, hfull, by simp [DynarrOp.run, dynarrEmplaceBack, hfull]⟩
    | some fill =>
        obtain ⟨hgrow, hsame, hroom⟩ := h.grow hfull fill
        obtain ⟨dar', hstore, hinv, heq, hcont⟩ := hgrow.take hroom x.2
        refine .inr ⟨dar', ?_, hinv, by rw [hcont, hsame], by simp, ?_⟩
        · simp only [DynarrOp.run, dynarrEmplaceBack, if_pos hfull]
          exact congrArg (Option.map _) hstore
        · rw [if_pos hfull, heq]
          rfl
  · have hroom := h.room
    obtain ⟨dar', hstore, hinv, heq, hcont⟩ := h.take (by omega) x.2
    refine .inr ⟨dar', ?_, hinv, hcont, fun hc => absurd hc hfull, ?_⟩
    · simp only [DynarrOp.run, dynarrEmplaceBack, if_neg hfull]
      exact congrArg (Option.map _) hstore
    · rw [if_neg hfull, heq]

/-- **Popping** the last object. -/
theorem DynarrInv.pop (h : DynarrInv n dar) (hne : dar.nelems ≠ 0) :
    ∃ x, dar.load (dynarrBack dar) = some x ∧ dar.contents.getLast? = some x ∧
      DynarrInv n (dynarrPopBack dar) ∧ (dynarrPopBack dar).contents = dar.contents.dropLast := by
  have hlast : dar.nelems - 1 < dar.contents.length := by
    rw [length_contents]
    omega
  obtain ⟨x, hx⟩ : ∃ x, dar.contents[dar.nelems - 1]? = some x :=
    ⟨_, List.getElem?_eq_getElem hlast⟩
  have hroom := h.room
  refine ⟨x, ?_, ?_, ⟨h.size, h.length, ?_, h.moved⟩, ?_⟩
  · rw [dynarrBack, h.load_at (by omega), hx]
  · rw [List.getLast?_eq_getElem?, length_contents, hx]
  · show dar.nelems - 1 ≤ dar.capacity
    omega
  · obtain ⟨k, hk⟩ := Nat.exists_eq_succ_of_ne_zero hne
    simp only [DynarrMem.contents, dynarrPopBack, hk, Nat.succ_eq_add_one, Nat.add_sub_cancel,
      List.range_succ, List.map_append, List.map_cons, List.map_nil, List.dropLast_concat]
    rfl

/-! ### Refinement -/

/-- **One use** of the array does to its contents what the list does. -/
theorem DynarrInv.run_step (h : DynarrInv n dar) {op : DynarrOp n}
    {ev : ListEvent (List UInt8)} {dar' : DynarrMem} (hrun : op.run dar = some (ev, dar')) :
    DynarrInv n dar' ∧ ev.apply dar.contents = some dar'.contents := by
  cases op with
  | emplace x realloc =>
      rcases h.emplace x realloc with ⟨-, -, hrun'⟩ | ⟨dar₁, hrun', hinv, hc, -⟩
      all_goals obtain ⟨rfl, rfl⟩ := Prod.mk.inj (Option.some.inj (hrun'.symm.trans hrun))
      · exact ⟨h, rfl⟩
      · exact ⟨hinv, congrArg some hc.symm⟩
  | assign idx x =>
      rw [DynarrOp.run] at hrun
      split at hrun
      next hidx =>
        have hroom := h.room
        obtain ⟨dar₁, hstore, hinv, -, hc⟩ := h.store_at (i := idx) (by omega) x.2
        rw [hstore] at hrun
        obtain ⟨rfl, rfl⟩ := Prod.mk.inj (Option.some.inj hrun)
        exact ⟨hinv, by rw [ListEvent.apply, if_pos (by simpa using hidx), hc]⟩
      next => cases hrun
  | pop =>
      rw [DynarrOp.run] at hrun
      split at hrun
      next => cases hrun
      next hne =>
        obtain ⟨x, hx, hlast, hinv, hc⟩ := h.pop hne
        rw [hx] at hrun
        obtain ⟨rfl, rfl⟩ := Prod.mk.inj (Option.some.inj hrun)
        exact ⟨hinv, by rw [ListEvent.apply, if_pos hlast, hc]⟩
  | clear =>
      obtain ⟨rfl, rfl⟩ := Prod.mk.inj (Option.some.inj hrun)
      exact ⟨⟨h.size, h.length, Nat.zero_le _, h.moved⟩, rfl⟩

/-- A use of the array does not shrink it. It grows, to at most twice its contents, only when an
object is added. -/
theorem DynarrInv.capacity_step (h : DynarrInv n dar) {op : DynarrOp n}
    {ev : ListEvent (List UInt8)} {dar' : DynarrMem} (hrun : op.run dar = some (ev, dar')) :
    dar'.capacity = dar.capacity ∨
      ev.adds = 1 ∧ dar'.capacity = max (2 * dar.nelems) 1 ∧ dar.capacity = dar.nelems := by
  cases op with
  | emplace x realloc =>
      rcases h.emplace x realloc with ⟨-, -, hrun'⟩ | ⟨dar₁, hrun', -, -, -, hcap⟩
      all_goals obtain ⟨rfl, rfl⟩ := Prod.mk.inj (Option.some.inj (hrun'.symm.trans hrun))
      · exact .inl rfl
      · split at hcap
        next hfull => exact .inr ⟨rfl, by rw [hcap, hfull], hfull.symm⟩
        next => exact .inl hcap
  | assign idx x =>
      rw [DynarrOp.run] at hrun
      split at hrun
      next hidx =>
        have hroom := h.room
        obtain ⟨dar₁, hstore, -, heq, -⟩ := h.store_at (i := idx) (by omega) x.2
        rw [hstore] at hrun
        obtain ⟨-, rfl⟩ := Prod.mk.inj (Option.some.inj hrun)
        exact .inl (by rw [heq])
      next => cases hrun
  | pop =>
      rw [DynarrOp.run] at hrun
      split at hrun
      next => cases hrun
      next hne =>
        obtain ⟨x, hx, -, -, -⟩ := h.pop hne
        rw [hx] at hrun
        obtain ⟨-, rfl⟩ := Prod.mk.inj (Option.some.inj hrun)
        exact .inl rfl
  | clear =>
      obtain ⟨-, rfl⟩ := Prod.mk.inj (Option.some.inj hrun)
      exact .inl rfl

/-- The number of objects that are added. -/
def addsOf (evs : List (ListEvent (List UInt8))) : ℕ := (evs.map ListEvent.adds).sum

/-- The length of a list is at most what was added to it. -/
theorem length_apply_le {l l' : List (List UInt8)} {ev : ListEvent (List UInt8)}
    (h : ev.apply l = some l') : l'.length ≤ l.length + ev.adds := by
  cases ev with
  | added x =>
      obtain rfl := Option.some.inj h
      simp [ListEvent.adds]
  | refused =>
      obtain rfl := Option.some.inj h
      exact Nat.le_add_right ..
  | assigned idx x =>
      simp only [ListEvent.apply, Option.ite_none_right_eq_some] at h
      obtain ⟨-, h⟩ := h
      obtain rfl := Option.some.inj h
      simp
  | popped x =>
      simp only [ListEvent.apply, Option.ite_none_right_eq_some] at h
      obtain ⟨-, h⟩ := h
      obtain rfl := Option.some.inj h
      simp only [List.length_dropLast]
      omega
  | cleared =>
      obtain rfl := Option.some.inj h
      exact Nat.zero_le _

/-- **A run** does to the contents what the list does, and what is moved is paid for by what is
added: with `k` objects added before the run, the room stays below `2 * k`. -/
theorem DynarrInv.run (h : DynarrInv n dar) {k : ℕ} (hk : dar.nelems ≤ k)
    (hroom : dar.capacity ≤ 2 * k - 1) {ops : List (DynarrOp n)}
    {evs : List (ListEvent (List UInt8))} {dar' : DynarrMem}
    (hrun : dynarrRun dar ops = some (evs, dar')) :
    DynarrInv n dar' ∧ listRun dar.contents evs = some dar'.contents ∧
      dar'.capacity ≤ 2 * (k + addsOf evs) - 1 := by
  induction ops generalizing dar evs k with
  | nil =>
      obtain ⟨rfl, rfl⟩ := Prod.mk.inj (Option.some.inj hrun)
      exact ⟨h, rfl, by simpa [addsOf] using hroom⟩
  | cons op ops ih =>
      obtain ⟨⟨ev, dar₁⟩, hstep, hrun⟩ := Option.bind_eq_some_iff.mp hrun
      obtain ⟨⟨evs₁, dar₂⟩, hrest, hrun⟩ := Option.bind_eq_some_iff.mp hrun
      obtain ⟨rfl, rfl⟩ := Prod.mk.inj (Option.some.inj hrun)
      obtain ⟨hinv₁, happly⟩ := h.run_step hstep
      have hlen := length_apply_le happly
      simp only [length_contents] at hlen
      have hcap : dar₁.capacity ≤ 2 * (k + ev.adds) - 1 := by
        rcases h.capacity_step hstep with hsame | ⟨hadds, hcap, -⟩ <;> omega
      obtain ⟨hinv, hlist, hroom'⟩ := ih hinv₁ (by omega) hcap hrest
      refine ⟨hinv, by rw [listRun, happly, Option.bind_some, hlist], ?_⟩
      rw [addsOf, List.map_cons, List.sum_cons, ← Nat.add_assoc]
      exact hroom'

/-- **The array refines a list.** For every object size and every run of a new array, whatever
`realloc` does: the events of the run are events of a list, whose elements are then found where
`dynarr_at` points to. Every use of the array returns, but for an index past the end and a pop of
an empty array, and an object is added if and only if the array has room or `realloc` succeeds. All
that `realloc` has moved over the run is less than the size of two objects for each one that was
added. -/
theorem dynarr_refines_list {ops : List (DynarrOp n)} {evs : List (ListEvent (List UInt8))}
    (h : dynarrRun (dynarrInit n) ops = some (evs, dar)) :
    listRun [] evs = some dar.contents ∧ dar.nelems = dar.contents.length ∧
      (∀ i < dar.nelems, dar.load (dynarrAt dar i) = dar.contents[i]?) ∧
      (∀ op : DynarrOp n, (op.run dar).isSome = true ∨ (op = .pop ∧ dar.contents = []) ∨
        ∃ idx x, op = .assign idx x ∧ dar.contents.length ≤ idx) ∧
      (∀ (x : DynarrObj n) (realloc : Option (ℕ → UInt8)),
        (∃ dar', (DynarrOp.emplace x realloc).run dar = some (.added x, dar')) ↔
          dar.contents.length < dar.capacity ∨ realloc.isSome = true) ∧
      dar.moved ≤ (2 * addsOf evs - 2) * n := by
  obtain ⟨hinv, hlist, hcap⟩ := (dynarrInv_init n).run (k := 0) le_rfl le_rfl h
  refine ⟨hlist, (length_contents dar).symm, fun i hi => hinv.load_at hi, fun op => ?_,
    fun x realloc => ?_, ?_⟩
  · cases op with
    | emplace x realloc =>
        rcases hinv.emplace x realloc with ⟨-, -, hrun⟩ | ⟨dar', hrun, -⟩
        all_goals exact .inl (by rw [hrun]; rfl)
    | assign idx x =>
        by_cases hidx : idx < dar.nelems
        · have hroom := hinv.room
          obtain ⟨dar', hstore, -⟩ := hinv.store_at (i := idx) (by omega) x.2
          exact .inl (by rw [DynarrOp.run, if_pos hidx, hstore]; rfl)
        · exact .inr (.inr ⟨idx, x, rfl, by rw [length_contents]; omega⟩)
    | pop =>
        by_cases hne : dar.nelems = 0
        · exact .inr (.inl ⟨rfl, List.length_eq_zero_iff.mp (by rw [length_contents, hne])⟩)
        · obtain ⟨x, hx, -⟩ := hinv.pop hne
          exact .inl (by rw [DynarrOp.run, if_neg hne, hx]; rfl)
    | clear => exact .inl rfl
  · rw [length_contents]
    rcases hinv.emplace x realloc with ⟨rfl, hfull, hrun⟩ | ⟨dar', hrun, -, -, hgrow, -⟩
    · simp [hrun, hfull]
    · refine ⟨fun _ => ?_, fun _ => ⟨dar', hrun⟩⟩
      rcases hinv.room.lt_or_eq with hlt | hfull
      · exact .inl hlt
      · exact .inr (Option.isSome_iff_ne_none.mpr (hgrow hfull))
  · rw [hinv.moved]
    exact Nat.mul_le_mul_right n (by omega)

end

/-- Three objects of two bytes, of which the last one goes and the first one is changed. -/
def grownOps : List (DynarrOp 2) :=
  [.emplace ⟨[1, 1], rfl⟩ (some fun _ => 0), .emplace ⟨[2, 2], rfl⟩ (some fun _ => 0),
    .emplace ⟨[3, 3], rfl⟩ none, .emplace ⟨[4, 4], rfl⟩ (some fun _ => 9), .pop,
    .assign 0 ⟨[5, 6], rfl⟩]

/-- Two blocks were left behind, and nothing is lost. -/
theorem dynarr_refines_list_grown :
    ∃ evs dar, dynarrRun (dynarrInit 2) grownOps = some (evs, dar) ∧
      listRun [] evs = some [[5, 6], [2, 2]] ∧ dar.moved ≤ 8 := by
  have hcontents : (dynarrRun (dynarrInit 2) grownOps).map (fun r => (r.2.contents, addsOf r.1)) =
      some ([[5, 6], [2, 2]], 3) := by decide
  obtain ⟨⟨evs, dar⟩, hrun, hc⟩ := Option.map_eq_some_iff.mp hcontents
  obtain ⟨hlist, -, -, -, -, hmoved⟩ := dynarr_refines_list hrun
  obtain ⟨hc, hadds⟩ := Prod.mk.inj hc
  refine ⟨evs, dar, hrun, by rw [hlist, hc], ?_⟩
  have : addsOf evs = 3 := hadds
  omega

/-! ### The arrays of the service -/

/-- The service's model of an array has the same objects and the same room. -/
structure Models {n : ℕ} (a : DynArray (DynarrObj n)) (dar : DynarrMem) : Prop where
  data : a.data.map Subtype.val = dar.contents
  capacity : a.capacity = dar.capacity

section

variable {n : ℕ} {dar : DynarrMem} {a : DynArray (DynarrObj n)}

/-- **`dynarr_emplace_back` of the service** is that of the array: both are refused, or both have
a new last object, to which the service assigns. -/
theorem Models.emplaceBack [Inhabited (DynarrObj n)] (h : DynarrInv n dar) (ha : Models a dar)
    (x : DynarrObj n) (al : Alloc) (fill : ℕ → UInt8) :
    ((a.emplaceBack al).1 = none ∧
      (DynarrOp.emplace x (if al.ok al.next then some fill else none)).run dar =
        some (.refused, dar)) ∨
    ∃ a' dar', (a.emplaceBack al).1 = some a' ∧
      (DynarrOp.emplace x (if al.ok al.next then some fill else none)).run dar =
        some (.added x, dar') ∧ Models (a'.set a.data.length x) dar' := by
  have hlen : a.data.length = dar.nelems := by
    rw [← length_contents, ← ha.data, List.length_map]
  have hset : ∀ y : DynarrObj n, (a.data ++ [y]).set a.data.length x = a.data ++ [x] := by
    intro y
    rw [List.set_append_right _ _ le_rfl, Nat.sub_self]
    rfl
  rcases h.emplace x (if al.ok al.next then some fill else none) with
    ⟨hm, hfull, hrun⟩ | ⟨dar', hrun, -, hc, hm, hcap⟩
  · have hno : al.ok al.next = false := by simpa using hm
    refine .inl ⟨?_, hrun⟩
    rw [DynArray.emplaceBack, if_pos (by rw [hlen, hfull, ha.capacity]), Alloc.malloc,
      if_neg (by simp [hno])]
  · by_cases hfull : dar.nelems = dar.capacity
    · have hok : al.ok al.next = true := by simpa using hm hfull
      refine .inr ⟨⟨a.data ++ [default], max (2 * a.capacity) 1, al.next⟩, dar', ?_, hrun, ?_, ?_⟩
      · rw [DynArray.emplaceBack, if_pos (by rw [hlen, hfull, ha.capacity]), Alloc.malloc,
          if_pos hok]
      · simp only [DynArray.set, hset, List.map_append, ha.data, hc, List.map_cons, List.map_nil]
      · rw [hcap, if_pos hfull, ← ha.capacity]
        rfl
    · refine .inr ⟨{ a with data := a.data ++ [default] }, dar', ?_, hrun, ?_, ?_⟩
      · rw [DynArray.emplaceBack, if_neg (by rwa [hlen, ha.capacity])]
      · simp only [DynArray.set, hset, List.map_append, ha.data, hc, List.map_cons, List.map_nil]
      · rw [hcap, if_neg hfull, ← ha.capacity]
        rfl

/-- `dynarr_pop_back` of the service is that of the array. -/
theorem Models.popBack (h : DynarrInv n dar) (ha : Models a dar) (hne : dar.nelems ≠ 0) :
    Models a.popBack (dynarrPopBack dar) := by
  obtain ⟨x, -, -, -, hc⟩ := h.pop hne
  exact ⟨by rw [hc, ← ha.data, DynArray.popBack, List.map_dropLast], ha.capacity⟩

end

end IoEngine
