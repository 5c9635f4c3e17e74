import Mathlib.Data.Nat.Notation
import Mathlib.Data.List.Defs
import Mathlib.Tactic.ByContra

/-!
# Machines that Call Themselves

A **machine** runs from a configuration and a state, one move after the other. Besides a
silent move it can finish, be stuck, or call itself: the call is a run from the start in the
state of the moment, and the caller goes on in the state in which it ended.

A **simulation** relates two machines move by move. A move of the first is matched by any number
of silent moves of the second and a move of the same kind. The machines are deterministic, so
that one such relation carries runs both ways.

## Main results

* `run_mono`: more fuel does not change the result.
* `Simulation.run_of_run`, `Simulation.run_of_run'`: related machines **end in related states**,
  each whenever the other ends.
* `Simulation.invocations_of`, `Simulation.invocations_of'`: so they do after any invocations, one
  after the other, with an environment between them.
-/

namespace Machine

/-- What a machine does in a configuration. -/
inductive Move (C S : Type)
  | stuck
  | done (s : S)
  | next (c : C) (s : S)
  /-- a call of the machine from `s`, after which it goes on at `c` -/
  | call (c : C) (s : S)

end Machine

/-- A machine with configurations `C` and states `S`. -/
structure Machine (C S : Type) where
  start : C
  step : C → S → Machine.Move C S

namespace Machine

variable {C C₁ C₂ S S₁ S₂ : Type}

/-- **The run** from a configuration, with fuel for its moves and those of its calls. -/
def run (M : Machine C S) : ℕ → C → S → Option S
  | 0, _, _ => none
  | fuel + 1, c, s =>
      match M.step c s with
      | .stuck => none
      | .done s' => some s'
      | .next c' s' => M.run fuel c' s'
      | .call c' s' => (M.run fuel M.start s').bind (M.run fuel c')

variable {M : Machine C S} {c c₁ c₂ c' : C} {s s₁ s₂ s' t : S} {m n : ℕ}

/-- A run that ends goes on ending with more fuel. -/
theorem run_succ_mono (h : M.run n c s = some t) : M.run (n + 1) c s = some t := by
  induction n generalizing c s t with
  | zero => cases h
  | succ n ih =>
      rw [run] at h ⊢
      cases hstep : M.step c s with
      | stuck | done s' =>
          simp only [hstep] at h ⊢
          exact h
      | next c' s' =>
          simp only [hstep] at h ⊢
          exact ih h
      | call c' s' =>
          simp only [hstep] at h ⊢
          obtain ⟨u, hcall, hrest⟩ := Option.bind_eq_some_iff.mp h
          exact Option.bind_eq_some_iff.mpr ⟨u, ih hcall, ih hrest⟩

/-- More fuel does not change the result. -/
theorem run_mono (hle : m ≤ n) (h : M.run m c s = some t) : M.run n c s = some t := by
  induction hle with
  | refl => exact h
  | step _ ih => exact run_succ_mono ih

/-- Silent moves, as many as the number says. -/
inductive Leads (M : Machine C S) : ℕ → C → S → C → S → Prop
  | refl {c : C} {s : S} : Leads M 0 c s c s
  | next {j : ℕ} {c c₁ c' : C} {s s₁ s' : S} (h : M.step c s = .next c₁ s₁)
      (hrest : Leads M j c₁ s₁ c' s') : Leads M (j + 1) c s c' s'

/-- Moves add up. -/
theorem Leads.trans {i j : ℕ} (h₁ : M.Leads i c s c₁ s₁) (h₂ : M.Leads j c₁ s₁ c₂ s₂) :
    M.Leads (j + i) c s c₂ s₂ := by
  induction h₁ with
  | refl => exact h₂
  | next h _ ih => exact .next h (ih h₂)

/-- A run does not change by what leads on. -/
theorem Leads.run {j : ℕ} (h : M.Leads j c s c' s') : M.run (n + j) c s = M.run n c' s' := by
  induction h with
  | refl => rfl
  | next h _ ih =>
      rw [← Nat.add_assoc, Machine.run, h]
      exact ih

/-- A run that ends has made its silent moves. -/
theorem Leads.of_run {j : ℕ} (h : M.Leads j c s c' s') (hrun : M.run n c s = some t) :
    ∃ m, n = m + j ∧ M.run m c' s' = some t := by
  have hle : j ≤ n := by
    by_contra hlt
    have hmono := run_mono (Nat.le_of_not_le hlt) hrun
    have hzero := h.run (n := 0)
    rw [Nat.zero_add, hmono] at hzero
    cases hzero
  refine ⟨n - j, (Nat.sub_add_cancel hle).symm, ?_⟩
  rwa [← h.run, Nat.sub_add_cancel hle]

/-- **A move is matched** from the configuration `d` in the state `t`: any number of silent moves
and a move of the same kind lead to what is related by `R`, or by `E` where a call or the run
begins or ends. -/
def Matched (M₂ : Machine C₂ S₂) (E : S₁ → S₂ → Prop) (R : C₁ → S₁ → C₂ → S₂ → Prop) (d : C₂)
    (t : S₂) : Move C₁ S₁ → Prop
  | .stuck => ∃ j d' t', M₂.Leads j d t d' t' ∧ M₂.step d' t' = .stuck
  | .done u => ∃ j d' t' u', M₂.Leads j d t d' t' ∧ M₂.step d' t' = .done u' ∧ E u u'
  | .next c₁ s₁ => ∃ j d' t', M₂.Leads (j + 1) d t d' t' ∧ R c₁ s₁ d' t'
  | .call c₁ s₁ => ∃ j d' t' d₁ t₁, M₂.Leads j d t d' t' ∧ M₂.step d' t' = .call d₁ t₁ ∧
      E s₁ t₁ ∧ ∀ u u', E u u' → R c₁ u d₁ u'

/-- **A simulation**: `R` relates configurations with their states, and `E` the states in which
calls begin and end. -/
structure Simulation (M₁ : Machine C₁ S₁) (M₂ : Machine C₂ S₂) (E : S₁ → S₂ → Prop)
    (R : C₁ → S₁ → C₂ → S₂ → Prop) : Prop where
  start : ∀ {s s'}, E s s' → R M₁.start s M₂.start s'
  step : ∀ {c s d t}, R c s d t → Matched M₂ E R d t (M₁.step c s)

section

variable {M₁ : Machine C₁ S₁} {M₂ : Machine C₂ S₂} {E : S₁ → S₂ → Prop}
  {R R' : C₁ → S₁ → C₂ → S₂ → Prop} {c : C₁} {d d' : C₂} {s : S₁} {t t' : S₂}

/-- A move that is matched in one relation is matched in a wider one. -/
theorem Matched.imp {mv : Move C₁ S₁} (hR : ∀ {c s d t}, R c s d t → R' c s d t)
    (h : Matched M₂ E R d t mv) : Matched M₂ E R' d t mv := by
  cases mv with
  | stuck | done u => exact h
  | next c₁ s₁ =>
      obtain ⟨j, d', t', hleads, h'⟩ := h
      exact ⟨j, d', t', hleads, hR h'⟩
  | call c₁ s₁ =>
      obtain ⟨j, d', t', d₁, t₁, hleads, hcall, hE, hback⟩ := h
      exact ⟨j, d', t', d₁, t₁, hleads, hcall, hE, fun u u' hu => hR (hback u u' hu)⟩

/-- A move is matched from where silent moves come from. -/
theorem Matched.of_leads {mv : Move C₁ S₁} {i : ℕ} (hi : M₂.Leads i d t d' t')
    (h : Matched M₂ E R d' t' mv) : Matched M₂ E R d t mv := by
  cases mv with
  | stuck =>
      obtain ⟨j, d₁, t₁, hleads, hstuck⟩ := h
      exact ⟨j + i, d₁, t₁, hi.trans hleads, hstuck⟩
  | done u =>
      obtain ⟨j, d₁, t₁, u', hleads, hdone, hE⟩ := h
      exact ⟨j + i, d₁, t₁, u', hi.trans hleads, hdone, hE⟩
  | next c₁ s₁ =>
      obtain ⟨j, d₁, t₁, hleads, hR⟩ := h
      refine ⟨j + i, d₁, t₁, ?_, hR⟩
      have hall := hi.trans hleads
      rwa [Nat.add_right_comm] at hall
  | call c₁ s₁ =>
      obtain ⟨j, d₁, t₁, d₂, t₂, hleads, hcall, hE, hback⟩ := h
      exact ⟨j + i, d₁, t₁, d₂, t₂, hi.trans hleads, hcall, hE, hback⟩

/-- A simulation needs to relate the starts **up to silent moves** of the second machine only. -/
theorem Simulation.of_leads
    (hstart : ∀ {s s'}, E s s' → ∃ j d t, M₂.Leads j M₂.start s' d t ∧ R M₁.start s d t)
    (hstep : ∀ {c s d t}, R c s d t → Matched M₂ E R d t (M₁.step c s)) :
    Simulation M₁ M₂ E fun c s d t => ∃ j d' t', M₂.Leads j d t d' t' ∧ R c s d' t' where
  start := hstart
  step := fun h => by
    obtain ⟨j, d', t', hleads, hR⟩ := h
    exact .of_leads hleads ((hstep hR).imp fun hR => ⟨0, _, _, .refl, hR⟩)

end

namespace Simulation

variable {M₁ : Machine C₁ S₁} {M₂ : Machine C₂ S₂} {E : S₁ → S₂ → Prop}
  {R : C₁ → S₁ → C₂ → S₂ → Prop} {c : C₁} {d : C₂} {s t : S₁} {s' t' : S₂}

/-- **Runs of the first machine** are matched by the second. -/
theorem run_of_run (h : Simulation M₁ M₂ E R) (hR : R c s d s') {n : ℕ}
    (hrun : M₁.run n c s = some t) : ∃ m t', M₂.run m d s' = some t' ∧ E t t' := by
  induction n generalizing c d s s' t with
  | zero => cases hrun
  | succ n ih =>
      rw [run] at hrun
      have hmatch := h.step hR
      cases hstep : M₁.step c s with
      | stuck => simp [hstep] at hrun
      | done u =>
          simp only [hstep, Option.some.injEq] at hrun
          subst hrun
          rw [hstep] at hmatch
          obtain ⟨j, d', u₂, t', hleads, hdone, hE⟩ := hmatch
          refine ⟨1 + j, t', ?_, hE⟩
          rw [hleads.run, run, hdone]
      | next c₁ s₁ =>
          simp only [hstep] at hrun
          rw [hstep] at hmatch
          obtain ⟨j, d', u₂, hleads, hR'⟩ := hmatch
          obtain ⟨m, t', hrun', hE⟩ := ih hR' hrun
          exact ⟨m + (j + 1), t', by rw [hleads.run, hrun'], hE⟩
      | call c₁ s₁ =>
          simp only [hstep] at hrun
          obtain ⟨u, hcalled, hrest⟩ := Option.bind_eq_some_iff.mp hrun
          rw [hstep] at hmatch
          obtain ⟨j, d', u₂, d₁, t₁, hleads, hcall, hE, hback⟩ := hmatch
          obtain ⟨m₁, u', hcalled', hu⟩ := ih (h.start hE) hcalled
          obtain ⟨m₂, t', hrest', ht⟩ := ih (hback u u' hu) hrest
          refine ⟨max m₁ m₂ + 1 + j, t', ?_, ht⟩
          rw [hleads.run, run, hcall]
          exact Option.bind_eq_some_iff.mpr
            ⟨u', run_mono (Nat.le_max_left _ _) hcalled', run_mono (Nat.le_max_right _ _) hrest'⟩

/-- **Runs of the second machine** are matched by the first. -/
theorem run_of_run' (h : Simulation M₁ M₂ E R) (hR : R c s d s') {n : ℕ}
    (hrun : M₂.run n d s' = some t') : ∃ m t, M₁.run m c s = some t ∧ E t t' := by
  induction n using Nat.strongRecOn generalizing c d s s' t' with
  | ind n ih =>
      have hmatch := h.step hR
      cases hstep : M₁.step c s with
      | stuck =>
          rw [hstep] at hmatch
          obtain ⟨j, d', u, hleads, hstuck⟩ := hmatch
          obtain ⟨m, rfl, hend⟩ := hleads.of_run hrun
          cases m <;> simp [run, hstuck] at hend
      | done u =>
          rw [hstep] at hmatch
          obtain ⟨j, d', u₂, u', hleads, hdone, hE⟩ := hmatch
          obtain ⟨m, rfl, hend⟩ := hleads.of_run hrun
          cases m with
          | zero => cases hend
          | succ m =>
              simp only [run, hdone, Option.some.injEq] at hend
              subst hend
              exact ⟨1, u, by rw [run, hstep], hE⟩
      | next c₁ s₁ =>
          rw [hstep] at hmatch
          obtain ⟨j, d', u₂, hleads, hR'⟩ := hmatch
          obtain ⟨m, rfl, hend⟩ := hleads.of_run hrun
          obtain ⟨m', t, hrun', hE⟩ := ih m (Nat.lt_add_of_pos_right (Nat.succ_pos j)) hR' hend
          refine ⟨m' + 1, t, ?_, hE⟩
          rw [run, hstep]
          exact hrun'
      | call c₁ s₁ =>
          rw [hstep] at hmatch
          obtain ⟨j, d', u₂, d₁, t₁, hleads, hcall, hE, hback⟩ := hmatch
          obtain ⟨m, rfl, hend⟩ := hleads.of_run hrun
          cases m with
          | zero => cases hend
          | succ m =>
              have hlt : m < m + 1 + j := by omega
              simp only [run, hcall] at hend
              obtain ⟨u', hcalled, hrest⟩ := Option.bind_eq_some_iff.mp hend
              obtain ⟨m₁, u, hcalled', hu⟩ := ih m hlt (h.start hE) hcalled
              obtain ⟨m₂, t, hrest', ht⟩ := ih m hlt (hback u u' hu) hrest
              refine ⟨max m₁ m₂ + 1, t, ?_, ht⟩
              rw [run, hstep]
              exact Option.bind_eq_some_iff.mpr ⟨u,
                run_mono (Nat.le_max_left _ _) hcalled', run_mono (Nat.le_max_right _ _) hrest'⟩

end Simulation

/-! ### One invocation after the other -/

/-- Invocations from the start, each after a step of the environment. -/
def invocations (M : Machine C S) (fuel : ℕ) : List (S → S) → S → Option S
  | [], s => some s
  | env :: envs, s => (M.run fuel M.start (env s)).bind (M.invocations fuel envs)

/-- Invocations that end go on ending with more fuel. -/
theorem invocations_mono {envs : List (S → S)} (hle : m ≤ n)
    (h : M.invocations m envs s = some t) : M.invocations n envs s = some t := by
  induction envs generalizing s with
  | nil => exact h
  | cons env envs ih =>
      obtain ⟨u, hrun, hrest⟩ := Option.bind_eq_some_iff.mp h
      exact Option.bind_eq_some_iff.mpr ⟨u, run_mono hle hrun, ih hrest⟩

namespace Simulation

variable {M₁ : Machine C₁ S₁} {M₂ : Machine C₂ S₂} {E : S₁ → S₂ → Prop}
  {R : C₁ → S₁ → C₂ → S₂ → Prop} {s t : S₁} {s' t' : S₂} {envs₁ : List (S₁ → S₁)}
  {envs₂ : List (S₂ → S₂)}

/-- **Invocations** of the first machine are matched by the second, when the environment keeps
the relation. -/
theorem invocations_of (h : Simulation M₁ M₂ E R)
    (henv : List.Forall₂ (fun e e' => ∀ s s', E s s' → E (e s) (e' s')) envs₁ envs₂)
    (hE : E s s') {n : ℕ} (hrun : M₁.invocations n envs₁ s = some t) :
    ∃ m t', M₂.invocations m envs₂ s' = some t' ∧ E t t' := by
  induction henv generalizing s s' with
  | nil =>
      obtain rfl := Option.some.inj hrun
      exact ⟨0, s', rfl, hE⟩
  | cons he _ ih =>
      obtain ⟨u, hrun₁, hrest⟩ := Option.bind_eq_some_iff.mp hrun
      obtain ⟨m₁, u', hrun₁', hu⟩ := h.run_of_run (h.start (he s s' hE)) hrun₁
      obtain ⟨m₂, t', hrest', ht⟩ := ih hu hrest
      exact ⟨max m₁ m₂, t', Option.bind_eq_some_iff.mpr ⟨u', run_mono (Nat.le_max_left _ _) hrun₁',
        invocations_mono (Nat.le_max_right _ _) hrest'⟩, ht⟩

/-- **Invocations** of the second machine are matched by the first. -/
theorem invocations_of' (h : Simulation M₁ M₂ E R)
    (henv : List.Forall₂ (fun e e' => ∀ s s', E s s' → E (e s) (e' s')) envs₁ envs₂)
    (hE : E s s') {n : ℕ} (hrun : M₂.invocations n envs₂ s' = some t') :
    ∃ m t, M₁.invocations m envs₁ s = some t ∧ E t t' := by
  induction henv generalizing s s' with
  | nil =>
      obtain rfl := Option.some.inj hrun
      exact ⟨0, s, rfl, hE⟩
  | cons he _ ih =>
      obtain ⟨u', hrun₂, hrest⟩ := Option.bind_eq_some_iff.mp hrun
      obtain ⟨m₁, u, hrun₁, hu⟩ := h.run_of_run' (h.start (he s s' hE)) hrun₂
      obtain ⟨m₂, t, hrest', ht⟩ := ih hu hrest
      exact ⟨max m₁ m₂, t, Option.bind_eq_some_iff.mpr ⟨u, run_mono (Nat.le_max_left _ _) hrun₁,
        invocations_mono (Nat.le_max_right _ _) hrest'⟩, ht⟩

end Simulation

end Machine
