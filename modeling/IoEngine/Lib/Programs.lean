import Mathlib.Algebra.Ring.Nat
import Mathlib.Data.Option.Basic

/-!
# Programs over Commands

Code that works on a memory only through a fixed set of commands, whose answers it may branch on.
Such a program has a meaning in every memory that can carry the commands out. If one memory
represents another, and carries out each single command as the other one does, then so it does
every program. A program takes as many steps as it carries out commands.

## Main results

* `Represents.run`: **a representation that fits the commands fits every program.**
* `AtMost.steps_le`: a program takes as many steps as stand on its longest branch.
* `Le.steps`: a program that goes on where another one fails takes as many steps where that one
  does not fail, so that a loop with much fuel takes no more steps than one with enough.
-/

namespace Programs

/-- A program: a command of type `C β` gives an answer in `β`, with which the program goes on. -/
inductive Prog (C : Type → Type) (α : Type) : Type 1
  | ret (x : α)
  | fail
  | call {β : Type} (c : C β) (k : β → Prog C α)

namespace Prog

variable {C : Type → Type} {α β : Type}

/-- One program after another. -/
def andThen : Prog C α → (α → Prog C β) → Prog C β
  | .ret x, f => f x
  | .fail, _ => .fail
  | .call c k, f => .call c fun y => andThen (k y) f

instance : Monad (Prog C) where
  pure := ret
  bind := andThen

/-- A single command. -/
def perform (c : C α) : Prog C α := .call c .ret

/-- A value that may be missing: the program fails without it. -/
def ofOption : Option α → Prog C α
  | none => .fail
  | some x => .ret x

end Prog

/-- A memory that carries out commands, or fails. -/
abbrev Memory (C : Type → Type) (σ : Type) : Type 1 := ∀ β : Type, C β → σ → Option (β × σ)

section

variable {C : Type → Type} {σ τ α β : Type} (H : Memory C σ)

/-- A program run in a memory. -/
def Prog.run : Prog C α → σ → Option (α × σ)
  | .ret x, s => some (x, s)
  | .fail, _ => none
  | .call c k, s => (H _ c s).bind fun r => (k r.1).run r.2

/-- A program that only gives an answer leaves the memory as it is. -/
@[simp] theorem run_pure (x : α) (s : σ) : (pure x : Prog C α).run H s = some (x, s) := rfl

/-- Two programs one after the other run one after the other. -/
@[simp] theorem run_bind (p : Prog C α) (f : α → Prog C β) (s : σ) :
    (p >>= f).run H s = (p.run H s).bind fun r => (f r.1).run H r.2 := by
  induction p generalizing s with
  | ret x => rfl
  | fail => rfl
  | call c k ih =>
      show (H _ c s).bind (fun r => (k r.1 >>= f).run H r.2) = _
      rw [Prog.run, Option.bind_assoc]
      exact congrArg _ (funext fun r => ih r.1 r.2)

/-- A program of a single command does what the memory does for it. -/
@[simp] theorem run_perform (c : C α) (s : σ) : (Prog.perform c).run H s = H _ c s :=
  Option.bind_fun_some (H _ c s)

/-- A value that may be missing leaves the memory as it is. -/
@[simp] theorem run_ofOption (o : Option α) (s : σ) :
    (Prog.ofOption o : Prog C α).run H s = o.map fun x => (x, s) := by
  cases o <;> rfl

/-- A choice between programs runs the chosen one. -/
@[simp] theorem run_ite (c : Prop) [Decidable c] (p q : Prog C α) (s : σ) :
    (if c then p else q).run H s = if c then p.run H s else q.run H s := by
  split <;> rfl

variable {H} {K : Memory C τ} {f : σ → τ}

/-- The memory `f s` represents `s`: each command gives the same answer in both, or fails in both,
and afterwards they represent each other again. -/
def Represents (H : Memory C σ) (K : Memory C τ) (f : σ → τ) : Prop :=
  ∀ (β : Type) (c : C β) (s : σ), K _ c (f s) = (H _ c s).map fun r => (r.1, f r.2)

/-- **A representation that fits the commands fits every program.** -/
theorem Represents.run (h : Represents H K f) (p : Prog C α) (s : σ) :
    p.run K (f s) = (p.run H s).map fun r => (r.1, f r.2) := by
  induction p generalizing s with
  | ret x => rfl
  | fail => rfl
  | call c k ih =>
      rw [Prog.run, Prog.run, h _ c s]
      cases H _ c s with
      | none => rfl
      | some r => exact ih r.1 r.2

end

/-! ### Steps -/

section

variable {C : Type → Type} {σ τ α β : Type}

/-- The commands that a program carries out in a memory, with the one it fails at. -/
def Prog.steps (H : Memory C σ) : Prog C α → σ → ℕ
  | .ret _, _ => 0
  | .fail, _ => 0
  | .call c k, s => ((H _ c s).elim 0 fun r => (k r.1).steps H r.2) + 1

/-- A branch of the program has at most `n` commands. -/
inductive AtMost : ℕ → Prog C α → Prop
  | ret (n : ℕ) (x : α) : AtMost n (.ret x)
  | fail (n : ℕ) : AtMost n .fail
  | call {n : ℕ} {β : Type} (c : C β) {k : β → Prog C α} (h : ∀ y, AtMost n (k y)) :
      AtMost (n + 1) (.call c k)

/-- **The order of how much is done**: `q` is `p`, but may go on where `p` fails. -/
inductive Le : Prog C α → Prog C α → Prop
  | fail (q : Prog C α) : Le .fail q
  | ret (x : α) : Le (.ret x) (.ret x)
  | call {β : Type} (c : C β) {k k' : β → Prog C α} (h : ∀ y, Le (k y) (k' y)) :
      Le (.call c k) (.call c k')

variable {H : Memory C σ} {K : Memory C τ} {p q : Prog C α} {s : σ} {n : ℕ}

/-- The steps of two programs one after the other add up, if the first one does not fail. -/
theorem steps_bind (p : Prog C α) (f : α → Prog C β) (s : σ) :
    (p >>= f).steps H s = p.steps H s + (p.run H s).elim 0 fun r => (f r.1).steps H r.2 := by
  induction p generalizing s with
  | ret x => exact (Nat.zero_add _).symm
  | fail => rfl
  | call c k ih =>
      show ((H _ c s).elim 0 fun r => (k r.1 >>= f).steps H r.2) + 1 = _
      rw [Prog.steps, Prog.run]
      cases H _ c s with
      | none => rfl
      | some r =>
          simp only [Option.elim_some, Option.bind_some, ih r.1 r.2]
          omega

/-- The steps of two programs add up when the first one is known to give an answer. -/
theorem steps_bind_of_run {f : α → Prog C β} {r : α × σ} (h : p.run H s = some r) :
    (p >>= f).steps H s = p.steps H s + (f r.1).steps H r.2 := by
  rw [steps_bind, h, Option.elim_some]

/-- Bounds on the steps of two programs add up. -/
theorem steps_bind_le {f : α → Prog C β} {a b : ℕ} (hp : p.steps H s ≤ a)
    (hf : ∀ r, p.run H s = some r → (f r.1).steps H r.2 ≤ b) :
    (p >>= f).steps H s ≤ a + b := by
  rw [steps_bind]
  cases hrun : p.run H s with
  | none => exact Nat.le_add_right_of_le hp
  | some r => exact Nat.add_le_add hp (hf r hrun)

/-- To give an answer takes no step. -/
@[simp] theorem steps_pure (x : α) (s : σ) : (pure x : Prog C α).steps H s = 0 := rfl

/-- A single command takes one step. -/
@[simp] theorem steps_perform (c : C α) (s : σ) : (Prog.perform c).steps H s = 1 := by
  rw [Prog.perform, Prog.steps]
  cases H _ c s <;> rfl

/-- A value that may be missing takes no step. -/
@[simp] theorem steps_ofOption (o : Option α) (s : σ) :
    (Prog.ofOption o : Prog C α).steps H s = 0 := by
  cases o <;> rfl

/-- A program takes as many steps in a memory as in the one it represents. -/
theorem Represents.steps {f : σ → τ} (h : Represents H K f) (p : Prog C α) (s : σ) :
    p.steps K (f s) = p.steps H s := by
  induction p generalizing s with
  | ret x => rfl
  | fail => rfl
  | call c k ih =>
      rw [Prog.steps, Prog.steps, h _ c s]
      cases H _ c s with
      | none => rfl
      | some r => exact congrArg (· + 1) (ih r.1 r.2)

namespace AtMost

variable {m a b : ℕ} {f : α → Prog C β}

/-- A bound may be made larger. -/
theorem mono (h : AtMost m p) (hle : m ≤ n) : AtMost n p := by
  induction h generalizing n with
  | ret m x => exact .ret n x
  | fail m => exact .fail n
  | call c _ ih =>
      obtain ⟨n, rfl⟩ : ∃ j, n = j + 1 := ⟨n - 1, by omega⟩
      exact .call c fun y => ih y (Nat.le_of_succ_le_succ hle)

/-- Bounds on the branches of two programs add up. -/
theorem bind (hp : AtMost a p) (hf : ∀ x, AtMost b (f x)) : AtMost (b + a) (p >>= f) := by
  induction hp with
  | ret a x => exact (hf x).mono (Nat.le_add_right b a)
  | fail a => exact .fail _
  | call c _ ih => exact .call c ih

/-- A command, and what comes after it. -/
theorem perform_bind {c : C α} (hf : ∀ x, AtMost n (f x)) :
    AtMost (n + 1) (Prog.perform c >>= f) :=
  .call c hf

/-- A single command has one command on its branch. -/
theorem perform {c : C α} : AtMost (n + 1) (Prog.perform c) := .call c fun y => .ret n y

/-- A value that may be missing adds nothing to a bound. -/
theorem ofOption_bind {o : Option α} (hf : ∀ x, AtMost n (f x)) :
    AtMost n (Prog.ofOption o >>= f) :=
  match o with
  | none => .fail n
  | some x => hf x

/-- A value that may be missing needs no command. -/
theorem ofOption {o : Option α} : AtMost n (Prog.ofOption o : Prog C α) :=
  match o with
  | none => .fail n
  | some x => .ret n x

/-- A choice is bounded as both of its programs are. -/
theorem ite {c : Prop} [Decidable c] (hp : AtMost n p) (hq : AtMost n q) :
    AtMost n (if c then p else q) := by
  split
  · exact hp
  · exact hq

/-- **A program takes as many steps as stand on its longest branch.** -/
theorem steps_le (h : AtMost n p) (s : σ) : p.steps H s ≤ n := by
  induction h generalizing s with
  | ret n x => exact Nat.zero_le n
  | fail n => exact Nat.zero_le n
  | call c _ ih =>
      rw [Prog.steps]
      refine Nat.succ_le_succ ?_
      cases H _ c s with
      | none => exact Nat.zero_le _
      | some r => exact ih r.1 r.2

end AtMost

namespace Le

variable {r : α × σ} {p' q' : Prog C α}

/-- A program does as much as itself. -/
theorem refl (p : Prog C α) : Le p p := by
  induction p with
  | ret x => exact .ret x
  | fail => exact .fail _
  | call c k ih => exact .call c ih

/-- Two programs one after the other do less if each of them does. -/
theorem bind (hp : Le p q) {f g : α → Prog C β} (hf : ∀ x, Le (f x) (g x)) :
    Le (p >>= f) (q >>= g) := by
  induction hp with
  | fail q => exact .fail _
  | ret x => exact hf x
  | call c _ ih => exact .call c ih

/-- The same start, and then more. -/
theorem bind_left (p : Prog C α) {f g : α → Prog C β} (hf : ∀ x, Le (f x) (g x)) :
    Le (p >>= f) (p >>= g) :=
  (refl p).bind hf

/-- A choice does less if both of its programs do. -/
theorem ite {c : Prop} [Decidable c] (hp : Le p p') (hq : Le q q') :
    Le (if c then p else q) (if c then p' else q') := by
  split
  · exact hp
  · exact hq

/-- Where the one program does not fail the other one gives the same. -/
theorem run (h : Le p q) (hp : p.run H s = some r) : q.run H s = some r := by
  induction h generalizing s with
  | fail q => cases hp
  | ret x => exact hp
  | call c _ ih =>
      rw [Prog.run] at hp ⊢
      obtain ⟨y, hc, hp⟩ := Option.bind_eq_some_iff.mp hp
      exact Option.bind_eq_some_iff.mpr ⟨y, hc, ih y.1 hp⟩

/-- **Where the one program does not fail the other one takes as many steps.** -/
theorem steps (h : Le p q) (hp : (p.run H s).isSome) : q.steps H s = p.steps H s := by
  induction h generalizing s with
  | fail q => cases hp
  | ret x => rfl
  | call c _ ih =>
      rw [Prog.run] at hp
      rw [Prog.steps, Prog.steps]
      cases hc : H _ c s with
      | none => rfl
      | some y =>
          rw [hc] at hp
          exact congrArg (· + 1) (ih y.1 hp)

/-- A program takes no more steps than the one that does enough has. -/
theorem steps_le (h : Le p q) (hp : (p.run H s).isSome) (hn : AtMost n p) : q.steps H s ≤ n := by
  rw [h.steps hp]
  exact hn.steps_le s

end Le

end

end Programs
