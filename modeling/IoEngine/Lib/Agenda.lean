import Mathlib.Data.List.Induction
import Mathlib.Data.Multiset.AddSub
import Mathlib.Logic.Function.Basic
import Mathlib.Order.Lattice

/-!
# Agendas

An **agenda** is what a scheduler owes: *posts*, to be done in the order in which they came;
*delays*, to be done once their time has come, the earliest first; and *events*, at most one
under each key, each to be done once, with or without a deadline. A *move* adds to an agenda or
does something on it, and a run is a list of timed moves, in which time does not go back.

Posts are of type `α`, delays of type `β`, each with a time of its own; keys are of type `κ`,
and what waits under a key is of type `η`.

## Main results

* `Runs.posts`, `Runs.delays`, `Runs.events`: in every run **what was taken on is what was done
  and what is left**, in order for the posts and for the events of each key.
* `Runs.sorted`: delays are **done in the order of their times**, and `Runs.due`: none is done
  before its time.
* `Runs.matched`: whatever is done under a key is what was **last taken on under it**, and
  nothing that is done for being late is done before its deadline.
-/

namespace Agenda

variable {α β κ η T : Type}

/-- A move: something is taken on (`post`, `delay`, `arm`), or it is done (`runPost`, `runDelay`
at its time, `dropDelay` whenever, `fire`, and `expire` after the deadline). -/
inductive Action (α β κ η T : Type)
  | post (x : α)
  | runPost (x : α)
  | delay (b : β)
  | runDelay (b : β)
  | dropDelay (b : β)
  | arm (k : κ) (x : η) (deadline : Option T)
  | fire (k : κ) (x : η)
  | expire (k : κ) (x : η)

namespace Action

/-- The post that is taken on. -/
def posted : Action α β κ η T → Option α
  | post x => some x
  | _ => none

/-- The post that is done. -/
def ranPost : Action α β κ η T → Option α
  | runPost x => some x
  | _ => none

/-- The delay that is taken on. -/
def delayed : Action α β κ η T → Option β
  | delay b => some b
  | _ => none

/-- The delay that is done at its time. -/
def ranDelay : Action α β κ η T → Option β
  | runDelay b => some b
  | _ => none

/-- The delay that is done, at its time or not. -/
def leftDelay : Action α β κ η T → Option β
  | runDelay b => some b
  | dropDelay b => some b
  | _ => none

variable [DecidableEq κ]

/-- What is taken on under a key. -/
def armed (k : κ) : Action α β κ η T → Option η
  | arm k' x _ => if k' = k then some x else none
  | _ => none

/-- What is done under a key. -/
def fired (k : κ) : Action α β κ η T → Option η
  | fire k' x => if k' = k then some x else none
  | expire k' x => if k' = k then some x else none
  | _ => none

end Action

/-- A timed move. -/
abbrev Timed (α β κ η T : Type) := T × Action α β κ η T

/-- What is owed. -/
structure Pending (α β κ η T : Type) where
  posts : List α
  delays : Multiset β
  events : κ → Option (η × Option T)

/-- Nothing is owed. -/
def Pending.empty : Pending α β κ η T :=
  ⟨[], 0, fun _ => none⟩

section

variable [LinearOrder T] [DecidableEq κ] (time : β → T)

/-- **A move at time `t`**. A delay that is done at its time is an earliest one. -/
inductive Move (t : T) : Pending α β κ η T → Action α β κ η T → Pending α β κ η T → Prop
  | post {a : Pending α β κ η T} (x : α) : Move t a (.post x) { a with posts := a.posts ++ [x] }
  | runPost {a : Pending α β κ η T} {x : α} {rest : List α} (h : a.posts = x :: rest) :
      Move t a (.runPost x) { a with posts := rest }
  | delay {a : Pending α β κ η T} {b : β} (h : t ≤ time b) :
      Move t a (.delay b) { a with delays := b ::ₘ a.delays }
  | runDelay {a : Pending α β κ η T} {b : β} {rest : Multiset β} (h : a.delays = b ::ₘ rest)
      (hdue : time b ≤ t) (hleast : ∀ c ∈ rest, time b ≤ time c) :
      Move t a (.runDelay b) { a with delays := rest }
  | dropDelay {a : Pending α β κ η T} {b : β} {rest : Multiset β} (h : a.delays = b ::ₘ rest) :
      Move t a (.dropDelay b) { a with delays := rest }
  | arm {a : Pending α β κ η T} {k : κ} (x : η) (d : Option T) (h : a.events k = none) :
      Move t a (.arm k x d) { a with events := Function.update a.events k (some (x, d)) }
  | fire {a : Pending α β κ η T} {k : κ} {x : η} {d : Option T} (h : a.events k = some (x, d)) :
      Move t a (.fire k x) { a with events := Function.update a.events k none }
  | expire {a : Pending α β κ η T} {k : κ} {x : η} {d : T} (h : a.events k = some (x, some d))
      (hdue : d ≤ t) : Move t a (.expire k x) { a with events := Function.update a.events k none }

/-- **A run** from time `t` to time `t'`. -/
inductive Runs : T → Pending α β κ η T → List (Timed α β κ η T) → T → Pending α β κ η T → Prop
  | nil {t t' : T} {a : Pending α β κ η T} (h : t ≤ t') : Runs t a [] t' a
  | cons {t u t' : T} {a b c : Pending α β κ η T} {act : Action α β κ η T}
      {tr : List (Timed α β κ η T)} (h : t ≤ u) (hmove : Move time u a act b)
      (hrest : Runs u b tr t' c) : Runs t a ((u, act) :: tr) t' c

end

section

variable [LinearOrder T] [DecidableEq κ] {time : β → T} {t u t' : T} {a b c : Pending α β κ η T}
  {tr tr₁ tr₂ : List (Timed α β κ η T)} {act : Action α β κ η T}

/-! ### Runs -/

/-- A run ends no earlier than it starts. -/
theorem Runs.le (h : Runs time t a tr t' b) : t ≤ t' := by
  induction h with
  | nil h => exact h
  | cons h _ _ ih => exact h.trans ih

/-- A run that begins late is one that waits. -/
theorem Runs.of_le (hle : t ≤ u) (h : Runs time u a tr t' b) : Runs time t a tr t' b := by
  cases h with
  | nil h => exact .nil (hle.trans h)
  | cons h hmove hrest => exact .cons (hle.trans h) hmove hrest

/-- A run may be continued by another one. -/
theorem Runs.append (h₁ : Runs time t a tr₁ u b) (h₂ : Runs time u b tr₂ t' c) :
    Runs time t a (tr₁ ++ tr₂) t' c := by
  induction h₁ with
  | nil h => exact h₂.of_le h
  | cons h hmove _ ih => exact .cons h hmove (ih h₂)

/-- One move. -/
theorem Move.runs (hmove : Move time u a act b) (h : t ≤ u) (h' : u ≤ t') :
    Runs time t a [(u, act)] t' b :=
  .cons h hmove (.nil h')

/-- A run can be looked at between any two moves. -/
theorem Runs.split (h : Runs time t a (tr₁ ++ tr₂) t' c) :
    ∃ u b, Runs time t a tr₁ u b ∧ Runs time u b tr₂ t' c := by
  induction tr₁ generalizing t a with
  | nil => exact ⟨t, a, .nil le_rfl, h⟩
  | cons m tr₁ ih =>
      cases h with
      | cons h hmove hrest =>
          obtain ⟨u, b, h₁, h₂⟩ := ih hrest
          exact ⟨u, b, .cons h hmove h₁, h₂⟩

/-- A run can be looked at from any move on. -/
theorem Runs.at_move (h : Runs time t a (tr₁ ++ (u, act) :: tr₂) t' c) :
    ∃ t₁ b b', Runs time t a tr₁ t₁ b ∧ t₁ ≤ u ∧ Move time u b act b' ∧
      Runs time u b' tr₂ t' c := by
  obtain ⟨t₁, b, h₁, h₂⟩ := h.split
  cases h₂ with
  | cons hle hmove hrest => exact ⟨t₁, b, _, h₁, hle, hmove, hrest⟩

/-! ### The accounts -/

/-- **The posts** that were taken on are those that were done and those that are left, in their
order. -/
theorem Runs.posts (h : Runs time t a tr t' b) :
    a.posts ++ tr.filterMap (fun m => m.2.posted) =
      tr.filterMap (fun m => m.2.ranPost) ++ b.posts := by
  induction h with
  | nil => simp
  | cons _ hmove _ ih =>
      cases hmove with
      | post x => simpa [Action.posted, Action.ranPost] using ih
      | runPost h => simpa [Action.posted, Action.ranPost, h] using ih
      | _ => simpa [Action.posted, Action.ranPost] using ih

/-- **The delays** that were taken on are those that were done and those that are left. -/
theorem Runs.delays (h : Runs time t a tr t' b) :
    a.delays + (tr.filterMap fun m => m.2.delayed : List β) =
      (tr.filterMap fun m => m.2.leftDelay : List β) + b.delays := by
  induction h with
  | nil => simp
  | cons _ hmove _ ih =>
      cases hmove with
      | delay h =>
          simp only [Action.delayed, Action.leftDelay, List.filterMap_cons] at ih ⊢
          rw [← ih, Multiset.cons_add, ← Multiset.add_cons, Multiset.cons_coe]
      | runDelay h | dropDelay h =>
          simp only [Action.delayed, Action.leftDelay, List.filterMap_cons] at ih ⊢
          rw [h, Multiset.cons_add, ih, ← Multiset.cons_coe, Multiset.cons_add]
      | _ => simpa [Action.delayed, Action.leftDelay] using ih

/-- What waits under a key. -/
def Pending.waiting (a : Pending α β κ η T) (k : κ) : List η :=
  (a.events k).toList.map Prod.fst

/-- **The events under a key** that were taken on are those that were done and the one that is
left, in their order: the next one is taken on when the one before is done. -/
theorem Runs.events (h : Runs time t a tr t' b) (k : κ) :
    a.waiting k ++ tr.filterMap (fun m => m.2.armed k) =
      tr.filterMap (fun m => m.2.fired k) ++ b.waiting k := by
  induction h with
  | nil => simp
  | cons _ hmove _ ih =>
      cases hmove with
      | @arm k' x d h =>
          by_cases hk : k' = k
          · subst hk
            simp only [Pending.waiting, Function.update_self, h] at ih ⊢
            simpa [Action.armed, Action.fired] using ih
          · simp only [Pending.waiting, Function.update_of_ne (Ne.symm hk)] at ih ⊢
            simpa [Action.armed, Action.fired, hk] using ih
      | @fire k' x d h | @expire k' x d h =>
          by_cases hk : k' = k
          · subst hk
            simp only [Pending.waiting, Function.update_self, h] at ih ⊢
            simpa [Action.armed, Action.fired] using ih
          · simp only [Pending.waiting, Function.update_of_ne (Ne.symm hk)] at ih ⊢
            simpa [Action.armed, Action.fired, hk] using ih
      | _ => simpa [Action.armed, Action.fired, Pending.waiting] using ih

/-! ### Times -/

/-- No delay is **done before its time**, and it is an earliest one then. -/
theorem Runs.due {x : β} (h : Runs time t a tr t' b) (hx : (u, .runDelay x) ∈ tr) :
    time x ≤ u := by
  obtain ⟨tr₁, tr₂, rfl⟩ := List.append_of_mem hx
  obtain ⟨_, _, _, -, -, hmove, -⟩ := h.at_move
  cases hmove with
  | runDelay _ hdue _ => exact hdue

/-- A delay that is done was there, or its time is not over when the run begins. -/
theorem Runs.mem_or_le {x : β} (h : Runs time t a tr t' b)
    (hx : x ∈ tr.filterMap fun m => m.2.ranDelay) : x ∈ a.delays ∨ t ≤ time x := by
  induction h with
  | nil => cases hx
  | cons hle hmove _ ih =>
      cases hmove with
      | delay h =>
          rcases ih (by simpa [Action.ranDelay] using hx) with hm | hlt
          · rcases Multiset.mem_cons.mp hm with rfl | hm
            · exact .inr (hle.trans h)
            · exact .inl hm
          · exact .inr (hle.trans hlt)
      | runDelay h =>
          rw [h]
          simp only [Action.ranDelay, List.filterMap_cons, List.mem_cons] at hx
          rcases hx with rfl | hx
          · exact .inl (Multiset.mem_cons_self _ _)
          · exact (ih hx).imp Multiset.mem_cons_of_mem hle.trans
      | dropDelay h =>
          rw [h]
          exact (ih (by simpa [Action.ranDelay] using hx)).imp Multiset.mem_cons_of_mem hle.trans
      | _ => exact (ih (by simpa [Action.ranDelay] using hx)).imp_right hle.trans

/-- **Delays are done in the order of their times.** -/
theorem Runs.sorted (h : Runs time t a tr t' b) :
    (tr.filterMap fun m => m.2.ranDelay).Pairwise fun x y => time x ≤ time y := by
  induction h with
  | nil => exact .nil
  | cons _ hmove hrest ih =>
      cases hmove with
      | runDelay _ hdue hleast =>
          refine .cons (fun y hy => ?_) ih
          exact (hrest.mem_or_le hy).elim (hleast y) hdue.trans
      | _ => simpa [Action.ranDelay] using ih

/-! ### Events -/

/-- The move has nothing to do with a key. -/
def Action.apart (k : κ) (act : Action α β κ η T) : Prop :=
  act.armed k = none ∧ act.fired k = none

/-- A move that does not concern an event leaves it as it is. -/
theorem Move.of_apart {k : κ} (h : Move time u a act b) (hact : act.apart k) :
    b.events k = a.events k := by
  cases h with
  | arm x d h | fire h | expire h =>
      refine Function.update_of_ne (fun hk => ?_) _ _
      simp [Action.apart, Action.armed, Action.fired, hk] at hact
  | _ => rfl

/-- What waits under a key is what was **last taken on under it**. -/
theorem Runs.last_armed {k : κ} {x : η} {d : Option T} (h : Runs time t a tr t' b)
    (hempty : a.events k = none) (hb : b.events k = some (x, d)) :
    ∃ m₁ m₂ v, tr = m₁ ++ (v, .arm k x d) :: m₂ ∧ (∀ m ∈ m₂, m.2.apart k) ∧ v ≤ t' := by
  induction tr using List.reverseRecOn generalizing t' b with
  | nil =>
      cases h with
      | nil => simp [hempty] at hb
  | append_singleton tr m ih =>
      obtain ⟨v, act⟩ := m
      obtain ⟨t₀, c, c', h₀, hle, hmove, hend⟩ := h.at_move
      have hle' : v ≤ t' := hend.le
      cases hend with
      | nil =>
          by_cases hact : act.apart k
          · rw [hmove.of_apart hact] at hb
            obtain ⟨m₁, m₂, w, rfl, hm₂, hw⟩ := ih h₀ hb
            refine ⟨m₁, m₂ ++ [(v, act)], w, by simp, fun m hm => ?_, hw.trans (hle.trans hle')⟩
            rcases List.mem_append.mp hm with hm | hm
            · exact hm₂ m hm
            · obtain rfl := List.mem_singleton.mp hm
              exact hact
          · cases hmove with
            | @arm k' y e =>
                obtain rfl : k' = k := by
                  by_contra hk
                  exact hact (by simp [Action.apart, Action.armed, Action.fired, hk])
                simp only [Function.update_self, Option.some.injEq, Prod.mk.injEq] at hb
                obtain ⟨rfl, rfl⟩ := hb
                exact ⟨tr, [], v, rfl, by simp, hle'⟩
            | @fire k' | @expire k' =>
                obtain rfl : k' = k := by
                  by_contra hk
                  exact hact (by simp [Action.apart, Action.armed, Action.fired, hk])
                simp at hb
            | _ => exact absurd ⟨rfl, rfl⟩ hact

/-- Whatever is done under a key is **what was last taken on under it**, and nothing that is done
for being late is done before its deadline. -/
theorem Runs.matched {k : κ} {x : η} (h : Runs time t a (tr₁ ++ (u, act) :: tr₂) t' b)
    (hempty : a.events k = none) (hact : act.fired k = some x) :
    ∃ m₁ m₂ v d, tr₁ = m₁ ++ (v, .arm k x d) :: m₂ ∧ (∀ m ∈ m₂, m.2.apart k) ∧ v ≤ u ∧
      (act = .expire k x → ∃ e, d = some e ∧ e ≤ u) := by
  obtain ⟨t₁, c, c', h₁, hle, hmove, -⟩ := h.at_move
  cases hmove with
  | @fire k' y d hpend =>
      simp only [Action.fired, Option.ite_none_right_eq_some, Option.some.injEq] at hact
      obtain ⟨rfl, rfl⟩ := hact
      obtain ⟨m₁, m₂, v, hsplit, hm₂, hv⟩ := h₁.last_armed hempty hpend
      exact ⟨m₁, m₂, v, d, hsplit, hm₂, hv.trans hle, by simp⟩
  | @expire k' y d hpend hdue =>
      simp only [Action.fired, Option.ite_none_right_eq_some, Option.some.injEq] at hact
      obtain ⟨rfl, rfl⟩ := hact
      obtain ⟨m₁, m₂, v, hsplit, hm₂, hv⟩ := h₁.last_armed hempty hpend
      exact ⟨m₁, m₂, v, some d, hsplit, hm₂, hv.trans hle, fun _ => ⟨d, rfl, hdue⟩⟩
  | _ => cases hact

end

end Agenda
