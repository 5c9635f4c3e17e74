import IoEngine.Lib.Machine
import Mathlib.Data.Int.Notation

/-!
# Statements with Jumps

The statements of a C function: loops with `break` and `continue`, a `switch` whose `case`
labels stand anywhere in its body, labels and `goto`. They run on a `Machine`, on which a
configuration is a statement and a continuation. A jump searches a body for its target, and
builds the continuation of the target on the way (`findCase`, `findLabel`); a `switch` does not
see the `case` labels of a `switch` inside it.

A state is of type `S`, a label of type `L`. Expressions are functions of the state. A function
may call itself.

## Main results

* `findLabel_eq_none_iff`: the search for a label fails if and only if there is none.
* `machine_step_switch`, `machine_step_goto`: jumps, by what the search finds.
-/

namespace Jumps

open Machine (Move)

variable {S L : Type}

/-- Statements. -/
inductive Stmt (S L : Type)
  | skip
  | exec (f : S → Option S)
  /-- a call of the function itself -/
  | call
  | seq (s t : Stmt S L)
  | ite (c : S → Bool) (s t : Stmt S L)
  /-- `for (; c; inc) s` -/
  | loop (c : S → Bool) (inc : S → S) (s : Stmt S L)
  | switch (e : S → ℤ) (s : Stmt S L)
  | case (n : ℤ) (s : Stmt S L)
  | label (l : L) (s : Stmt S L)
  | goto (l : L)
  | brk
  | cont

/-- What is left to do after a statement. -/
inductive Cont (S L : Type)
  | stop
  | seq (t : Stmt S L) (k : Cont S L)
  | loop (c : S → Bool) (inc : S → S) (s : Stmt S L) (k : Cont S L)
  | switch (k : Cont S L)

/-! ### Targets -/

/-- The `case` label `n` of the `switch` around a statement. -/
def findCase (n : ℤ) : Stmt S L → Cont S L → Option (Stmt S L × Cont S L)
  | .seq s t, k => (findCase n s (.seq t k)).or (findCase n t k)
  | .ite _ s t, k => (findCase n s k).or (findCase n t k)
  | .loop c inc s, k => findCase n s (.loop c inc s k)
  | .case m s, k => if m = n then some (s, k) else findCase n s k
  | .label _ s, k => findCase n s k
  | _, _ => none

/-- The labels of a statement. -/
def Stmt.labels : Stmt S L → List L
  | seq s t => s.labels ++ t.labels
  | ite _ s t => s.labels ++ t.labels
  | loop _ _ s => s.labels
  | switch _ s => s.labels
  | case _ s => s.labels
  | label l s => l :: s.labels
  | _ => []

variable [DecidableEq L]

/-- The label `l` in a statement. -/
def findLabel (l : L) : Stmt S L → Cont S L → Option (Stmt S L × Cont S L)
  | .seq s t, k => (findLabel l s (.seq t k)).or (findLabel l t k)
  | .ite _ s t, k => (findLabel l s k).or (findLabel l t k)
  | .loop c inc s, k => findLabel l s (.loop c inc s k)
  | .switch _ s, k => findLabel l s (.switch k)
  | .case _ s, k => findLabel l s k
  | .label l' s, k => if l' = l then some (s, k) else findLabel l s k
  | _, _ => none

/-- **The search for a label** fails if and only if the statement does not have it. -/
theorem findLabel_eq_none_iff {l : L} {s : Stmt S L} {k : Cont S L} :
    findLabel l s k = none ↔ l ∉ s.labels := by
  induction s generalizing k with
  | seq s t ihs iht => simp [findLabel, Stmt.labels, ihs, iht]
  | ite c s t ihs iht => simp [findLabel, Stmt.labels, ihs, iht]
  | loop c inc s ih => simp [findLabel, Stmt.labels, ih]
  | switch e s ih => simp [findLabel, Stmt.labels, ih]
  | case n s ih => simp [findLabel, Stmt.labels, ih]
  | label l' s ih =>
      by_cases hl : l' = l
      · simp [findLabel, Stmt.labels, hl]
      · simp [findLabel, Stmt.labels, hl, ih, Ne.symm hl]
  | _ => simp [findLabel, Stmt.labels]

/-! ### The machine -/

/-- One move of a function with the body `prog`. -/
def step (prog : Stmt S L) : Stmt S L × Cont S L → S → Move (Stmt S L × Cont S L) S
  | (.skip, .stop), σ => .done σ
  | (.skip, .seq t k), σ => .next (t, k) σ
  | (.skip, .loop c inc s k), σ => .next (.loop c inc s, k) (inc σ)
  | (.skip, .switch k), σ => .next (.skip, k) σ
  | (.exec f, k), σ =>
      match f σ with
      | some σ' => .next (.skip, k) σ'
      | none => .stuck
  | (.call, k), σ => .call (.skip, k) σ
  | (.seq s t, k), σ => .next (s, .seq t k) σ
  | (.ite c s t, k), σ => .next (if c σ then s else t, k) σ
  | (.loop c inc s, k), σ =>
      if c σ then .next (s, .loop c inc s k) σ else .next (.skip, k) σ
  | (.switch e s, k), σ =>
      match findCase (e σ) s (.switch k) with
      | some target => .next target σ
      | none => .next (.skip, k) σ
  | (.case _ s, k), σ => .next (s, k) σ
  | (.label _ s, k), σ => .next (s, k) σ
  | (.goto l, _), σ =>
      match findLabel l prog .stop with
      | some target => .next target σ
      | none => .stuck
  | (.brk, .stop), _ => .stuck
  | (.brk, .seq _ k), σ => .next (.brk, k) σ
  | (.brk, .loop _ _ _ k), σ => .next (.skip, k) σ
  | (.brk, .switch k), σ => .next (.skip, k) σ
  | (.cont, .stop), _ => .stuck
  | (.cont, .seq _ k), σ => .next (.cont, k) σ
  | (.cont, .loop c inc s k), σ => .next (.loop c inc s, k) (inc σ)
  | (.cont, .switch k), σ => .next (.cont, k) σ

/-- **A function** with the body `prog`. -/
def machine (prog : Stmt S L) : Machine (Stmt S L × Cont S L) S where
  start := (prog, .stop)
  step := step prog

variable {prog s t : Stmt S L} {c : S → Bool} {inc : S → S} {k : Cont S L} {σ : S}
  {target : Stmt S L × Cont S L}

/-- A conditional goes on with the branch that its condition chooses. -/
theorem machine_step_ite : (machine prog).step (.ite c s t, k) σ =
    .next (if c σ then s else t, k) σ := rfl

/-- A loop whose condition holds enters its body. -/
theorem machine_step_loop (h : c σ = true) :
    (machine prog).step (.loop c inc s, k) σ = .next (s, .loop c inc s k) σ :=
  if_pos h

/-- A loop whose condition does not hold is left. -/
theorem machine_step_loop_end (h : c σ = false) :
    (machine prog).step (.loop c inc s, k) σ = .next (.skip, k) σ :=
  if_neg (by simp [h])

/-- A `switch` goes on at the `case` label that the search finds in its body. -/
theorem machine_step_switch {e : S → ℤ} (h : findCase (e σ) s (.switch k) = some target) :
    (machine prog).step (.switch e s, k) σ = .next target σ := by
  simp [machine, step, h]

/-- A `goto` goes on at the label that the search finds in the whole program. -/
theorem machine_step_goto {l : L} (h : findLabel l prog .stop = some target) :
    (machine prog).step (.goto l, k) σ = .next target σ := by
  simp [machine, step, h]

end Jumps
