import Mathlib.Data.List.Nodup
import Mathlib.Logic.Function.Basic

/-!
# Ownership

A memory of blocks and the list of those who are to free them: every block that is live has
exactly one owner, and nobody owns a block that is not. A block that is allocated gets an owner,
the owner may hand it on, and frees it in the end.
-/

namespace Ownership

variable {α β : Type*} {live : α → Option β} {owners owners' : List α} {a : α}

/-- **Every live block has exactly one owner**, and every owner a live block. -/
structure Owns (live : α → Option β) (owners : List α) : Prop where
  nodup : owners.Nodup
  isSome_iff : ∀ a, (live a).isSome ↔ a ∈ owners

/-- Without blocks there are no owners. -/
theorem Owns.empty : Owns (fun _ : α => (none : Option β)) [] :=
  ⟨List.nodup_nil, fun a => by simp⟩

/-- Ownership does not depend on the order of the owners. -/
theorem Owns.perm (h : Owns live owners) (hp : owners.Perm owners') : Owns live owners' :=
  ⟨hp.nodup_iff.mp h.nodup, fun a => (h.isSome_iff a).trans hp.mem_iff⟩

/-- A free block has no owner. -/
theorem Owns.notMem (h : Owns live owners) (ha : live a = none) : a ∉ owners := by
  rw [← h.isSome_iff, ha]
  exact Bool.false_ne_true

variable [DecidableEq α]

/-- **A new block** has the one who asked for it as its owner. -/
theorem Owns.alloc (h : Owns live owners) (ha : live a = none) (b : β) :
    Owns (Function.update live a (some b)) (a :: owners) := by
  refine ⟨List.nodup_cons.mpr ⟨h.notMem ha, h.nodup⟩, fun c => ?_⟩
  by_cases hc : c = a
  · simp [hc]
  · rw [Function.update_of_ne hc, h.isSome_iff, List.mem_cons, or_iff_right hc]

/-- Writing to a block changes no owner. -/
theorem Owns.write (h : Owns live owners) (ha : a ∈ owners) (b : β) :
    Owns (Function.update live a (some b)) owners := by
  refine ⟨h.nodup, fun c => ?_⟩
  by_cases hc : c = a
  · simp [hc, ha]
  · rw [Function.update_of_ne hc, h.isSome_iff]

/-- **The owner frees its block.** -/
theorem Owns.free (h : Owns live (a :: owners)) : Owns (Function.update live a none) owners := by
  obtain ⟨ha, hnodup⟩ := List.nodup_cons.mp h.nodup
  refine ⟨hnodup, fun c => ?_⟩
  by_cases hc : c = a
  · simp [hc, ha]
  · rw [Function.update_of_ne hc, h.isSome_iff, List.mem_cons, or_iff_right hc]

end Ownership
