import IoEngine.Lib.Jumps

/-!
# Coroutines

`coroutine.h` writes coroutines as macros. `async` is a `for` around a `switch` on the saved
state, `await` puts a `case` label after the awaited statement, and the way out of the block is
a `goto` into a branch that is never taken otherwise. `async` and `awaitImpl` are these
macros over the statements with jumps, and `Coroutine.function` is a function that has one
such block.

What the macros are for is said by a machine of its own (`Coroutine.machine`), in which `await`
is a statement: the coroutine keeps where to go on, which is a continuation and not a number.

The awaited statement may call the coroutine, as a handler is called at once when its event is
cancelled. So may any other statement.

## Main results

* `Coroutine.simulation`: **the macros simulate** the coroutine.
* `coroutine_implements`: over any invocations the function does what the coroutine does, and
  **the saved number is the label** of the `await` to go on from.
-/

namespace IoEngine

open Jumps Machine

variable {σ : Type}

/-! ### The macros -/

/-- `coro_state` -/
abbrev CoroState := ℤ

/-- `CORO_INITIALIZER` -/
def coroInitializer : CoroState := 0

/-- `coro_is_done` -/
def coroIsDone (state : CoroState) : Bool :=
  state == -1

/-- The labels of the `async` block. -/
inductive CoroLabel
  | coroCont
  | coroBreak
  deriving DecidableEq

/-- Statements of a function over the user's state and the `coro_state`. -/
abbrev CStmt (σ : Type) := Stmt (σ × CoroState) CoroLabel

/-- Their continuations. -/
abbrev CCont (σ : Type) := Jumps.Cont (σ × CoroState) CoroLabel

/-- The body of the `for` of `async`. -/
def asyncBody (body : CStmt σ) : CStmt σ :=
  .ite (fun s => s.2 == -2)
    (.seq (.goto .coroCont) (.label .coroCont .cont))
    (.ite (fun s => s.2 == -3)
      (.seq (.goto .coroBreak) (.label .coroBreak .brk))
      (.switch (fun s => s.2) (.case 0 body)))

/-- `async` -/
def async (body : CStmt σ) : CStmt σ :=
  .loop (fun s => !coroIsDone s.2) (fun s => (s.1, -1)) (asyncBody body)

/-- The inner `for` of `await`, around the awaited statement: its body. -/
def awaitInner (x : CStmt σ) : CStmt σ :=
  .ite (fun s => decide (-2 ≤ s.2)) (.goto .coroBreak) (.case 0 x)

/-- The `for` around it: its body. -/
def awaitOuter (x : CStmt σ) : CStmt σ :=
  .ite (fun s => decide (-1 ≤ s.2)) (.goto .coroCont) (.loop (fun _ => true) id (awaitInner x))

/-- The body of the `for` of `await`. -/
def awaitBody (label : ℤ) (x : CStmt σ) : CStmt σ :=
  .ite (fun s => s.2 == -4)
    (.case label .brk)
    (.switch (fun _ => 0) (.loop (fun _ => true) id (awaitOuter x)))

/-- `AWAIT_IMPL` -/
def awaitImpl (label : ℤ) (x : CStmt σ) : CStmt σ :=
  .seq (.exec fun s => some (s.1, label)) (.loop (fun _ => true) id (awaitBody label x))

/-! ### Functions with an `async` block -/

/-- What stands in a function with an `async` block. Conditions may use `coro_is_done`. The
number of an `await` is its label. -/
inductive Block (σ : Type)
  | skip
  | exec (f : σ → Option σ)
  /-- a call of the function itself -/
  | call
  | seq (s t : Block σ)
  | ite (c : σ → Bool → Bool) (s t : Block σ)
  | loop (c : σ → Bool → Bool) (inc : σ → σ) (s : Block σ)
  | brk
  | cont
  | await (label : ℤ) (x : Block σ)

/-- `co_return` -/
def coReturn (label : ℤ) : Block σ :=
  .await label .brk

/-- A condition on the state, with the answer of `coro_is_done`. -/
def withDone (c : σ → Bool → Bool) (s : σ × CoroState) : Bool :=
  c s.1 (coroIsDone s.2)

/-- **The statement** with its macros replaced. -/
def Block.expand : Block σ → CStmt σ
  | skip => .skip
  | exec f => .exec fun s => (f s.1).map fun u => (u, s.2)
  | call => .call
  | seq s t => .seq s.expand t.expand
  | ite c s t => .ite (withDone c) s.expand t.expand
  | loop c inc s => .loop (withDone c) (fun s => (inc s.1, s.2)) s.expand
  | brk => .brk
  | cont => .cont
  | await label x => awaitImpl label x.expand

/-- A function with an `async` block: what stands before it, in it and after it. -/
structure Coroutine (σ : Type) where
  pre : Block σ
  body : Block σ
  post : Block σ

/-- **The function**, with its macros replaced. -/
def Coroutine.function (co : Coroutine σ) : CStmt σ :=
  .seq co.pre.expand (.seq (async co.body.expand) co.post.expand)

/-! ### Coroutines as they are meant -/

/-- What is left to do after a statement. `enter` is the `async` block and what comes after it,
`leave` is the end of the block, and `await` is the end of an awaited statement. -/
inductive CoCont (σ : Type)
  | stop
  | enter
  | leave
  | seq (t : Block σ) (k : CoCont σ)
  | loop (c : σ → Bool → Bool) (inc : σ → σ) (s : Block σ) (k : CoCont σ)
  | await (label : ℤ) (x : Block σ) (k : CoCont σ)

/-- Where a coroutine goes on. -/
inductive Resume (σ : Type)
  | ready
  | suspended (k : CoCont σ)
  | finished

/-- The coroutine is done. -/
def Resume.isDone : Resume σ → Bool
  | finished => true
  | _ => false

namespace Coroutine

/-- **One move of a coroutine.** -/
def step (co : Coroutine σ) :
    Block σ × CoCont σ → σ × Resume σ → Move (Block σ × CoCont σ) (σ × Resume σ)
  | (.skip, .stop), (u, r) => .done (u, r)
  | (.skip, .enter), (u, .ready) => .next (co.body, .leave) (u, .ready)
  | (.skip, .enter), (u, .suspended k) => .next (.skip, k) (u, .suspended k)
  | (.skip, .enter), (u, .finished) => .next (co.post, .stop) (u, .finished)
  | (.skip, .leave), (u, _) => .next (co.post, .stop) (u, .finished)
  | (.skip, .seq t k), (u, r) => .next (t, k) (u, r)
  | (.skip, .loop c inc s k), (u, r) => .next (.loop c inc s, k) (inc u, r)
  | (.skip, .await _ _ _), (u, r) => .next (co.post, .stop) (u, r)
  | (.exec f, k), (u, r) =>
      match f u with
      | some u' => .next (.skip, k) (u', r)
      | none => .stuck
  | (.call, k), (u, r) => .call (.skip, k) (u, r)
  | (.seq s t, k), (u, r) => .next (s, .seq t k) (u, r)
  | (.ite c s t, k), (u, r) => .next (if c u r.isDone then s else t, k) (u, r)
  | (.loop c inc s, k), (u, r) =>
      if c u r.isDone then .next (s, .loop c inc s k) (u, r) else .next (.skip, k) (u, r)
  | (.brk, .seq _ k), (u, r) => .next (.brk, k) (u, r)
  | (.brk, .loop _ _ _ k), (u, r) => .next (.skip, k) (u, r)
  | (.brk, .leave), (u, _) => .next (co.post, .stop) (u, .finished)
  | (.brk, .await _ _ _), (u, _) => .next (co.post, .stop) (u, .finished)
  | (.brk, _), _ => .stuck
  | (.cont, .seq _ k), (u, r) => .next (.cont, k) (u, r)
  | (.cont, .loop c inc s k), (u, r) => .next (.loop c inc s, k) (inc u, r)
  | (.cont, .leave), (u, _) => .next (co.post, .stop) (u, .finished)
  | (.cont, .await _ _ _), (u, r) => .next (co.post, .stop) (u, r)
  | (.cont, _), _ => .stuck
  | (.await label x, k), (u, _) => .next (x, .await label x k) (u, .suspended k)

/-- **The coroutine**, as a machine that goes on from where it was suspended. -/
def machine (co : Coroutine σ) : Machine (Block σ × CoCont σ) (σ × Resume σ) where
  start := (co.pre, .enter)
  step := co.step

end Coroutine

/-! ### Labels -/

namespace Block

/-- The labels of a statement, awaited statements aside. -/
def awaits : Block σ → List ℤ
  | seq s t => s.awaits ++ t.awaits
  | ite _ s t => s.awaits ++ t.awaits
  | loop _ _ s => s.awaits
  | await label _ => [label]
  | _ => []

/-- The statement awaits nothing. -/
def plain : Block σ → Bool
  | seq s t => s.plain && t.plain
  | ite _ s t => s.plain && t.plain
  | loop _ _ s => s.plain
  | await _ _ => false
  | _ => true

/-- No awaited statement awaits anything. -/
def flat : Block σ → Bool
  | seq s t => s.flat && t.flat
  | ite _ s t => s.flat && t.flat
  | loop _ _ s => s.flat
  | await _ x => x.plain
  | _ => true

/-- The `await` with a label, and what is left to do after it. -/
def findAwait (n : ℤ) : Block σ → CoCont σ → Option (Block σ × CoCont σ)
  | seq s t, k => (findAwait n s (.seq t k)).or (findAwait n t k)
  | ite _ s t, k => (findAwait n s k).or (findAwait n t k)
  | loop c inc s, k => findAwait n s (.loop c inc s k)
  | await m x, k => if m = n then some (x, k) else none
  | _, _ => none

end Block

namespace Coroutine

/-- **The coroutine is well formed**: only the block awaits, awaited statements do not, and labels
are positive and different, as they are counted by `__COUNTER__`. -/
structure Wf (co : Coroutine σ) : Prop where
  pre : co.pre.plain = true
  post : co.post.plain = true
  flat : co.body.flat = true
  nodup : co.body.awaits.Nodup
  pos : ∀ n ∈ co.body.awaits, 0 < n

/-- **The saved number stands for where to go on.** -/
inductive Saved (co : Coroutine σ) : Resume σ → CoroState → Prop
  | ready : Saved co .ready coroInitializer
  | suspended {n : ℤ} {x : Block σ} {k : CoCont σ} (hn : 0 < n)
      (h : co.body.findAwait n .leave = some (x, k)) : Saved co (.suspended k) n
  | finished : Saved co .finished (-1)

end Coroutine

section

variable {s : Block σ} {k k' : CoCont σ} {n : ℤ} {x : Block σ} {label : CoroLabel}

/-! ### What the replaced macros contain -/

/-- The labels of the block are not in it. -/
@[simp] theorem labels_expand (s : Block σ) : s.expand.labels = [] := by
  induction s with
  | seq s t ihs iht => simp [Block.expand, Stmt.labels, ihs, iht]
  | ite c s t ihs iht => simp [Block.expand, Stmt.labels, ihs, iht]
  | loop c inc s ih => simp [Block.expand, Stmt.labels, ih]
  | await label x ih =>
      simp [Block.expand, awaitImpl, awaitBody, awaitOuter, awaitInner, Stmt.labels, ih]
  | _ => rfl

/-- A plain statement awaits nothing. -/
theorem awaits_of_plain (h : s.plain = true) : s.awaits = [] := by
  induction s with
  | seq s t ihs iht | ite c s t ihs iht =>
      obtain ⟨hs, ht⟩ := Bool.and_eq_true_iff.mp h
      simp [Block.awaits, ihs hs, iht ht]
  | loop c inc s ih => exact ih h
  | await label x => cases h
  | _ => rfl

/-- Only labels of the statement are found. -/
theorem findAwait_mem {r : Block σ × CoCont σ} (h : s.findAwait n k = some r) : n ∈ s.awaits := by
  induction s generalizing k with
  | seq s t ihs iht | ite c s t ihs iht =>
      rcases Option.or_eq_some_iff.mp h with hs | ⟨-, ht⟩
      · exact List.mem_append_left _ (ihs hs)
      · exact List.mem_append_right _ (iht ht)
  | loop c inc s ih => exact ih h
  | await m x =>
      simp only [Block.findAwait, Option.ite_none_right_eq_some] at h
      exact List.mem_singleton.mpr h.1.symm
  | _ => cases h

/-- When labels are different, an `await` in the second part is not in the first. -/
theorem findAwait_right {s t : Block σ} {k₁ k₂ : CoCont σ} {r : Block σ × CoCont σ}
    (hnodup : (s.awaits ++ t.awaits).Nodup) (h : t.findAwait n k₂ = some r) :
    (s.findAwait n k₁).or (t.findAwait n k₂) = some r := by
  refine Option.or_eq_some_iff.mpr (.inr ⟨?_, h⟩)
  by_contra hs
  obtain ⟨r', hr'⟩ := Option.ne_none_iff_exists'.mp hs
  exact (List.nodup_append.mp hnodup).2.2 n (findAwait_mem hr') n (findAwait_mem h) rfl

end

/-! ### Places -/

namespace Coroutine

/-- The continuation with the macros replaced. -/
def expandCont (co : Coroutine σ) : CoCont σ → CCont σ
  | .stop => .stop
  | .enter => .seq (.seq (async co.body.expand) co.post.expand) .stop
  | .leave => .switch (.loop (fun s => !coroIsDone s.2) (fun s => (s.1, -1))
      (asyncBody co.body.expand) (.seq co.post.expand .stop))
  | .seq t k => .seq t.expand (co.expandCont k)
  | .loop c inc s k => .loop (withDone c) (fun s => (inc s.1, s.2)) s.expand (co.expandCont k)
  | .await label x k => .loop (fun _ => true) id (awaitInner x.expand)
      (.loop (fun _ => true) id (awaitOuter x.expand)
        (.switch (.loop (fun _ => true) id (awaitBody label x.expand) (co.expandCont k))))

/-- **A statement in its place**: before the continuation `k`, its `await`s are those of the
block. -/
structure InPlace (co : Coroutine σ) (s : Block σ) (k : CoCont σ) : Prop where
  flat : s.flat = true
  nodup : s.awaits.Nodup
  pos : ∀ n ∈ s.awaits, 0 < n
  found : ∀ n r, s.findAwait n k = some r → co.body.findAwait n .leave = some r

/-- What a continuation will run is in its place. -/
def ContInPlace (co : Coroutine σ) : CoCont σ → Prop
  | .seq t k => co.InPlace t k ∧ co.ContInPlace k
  | .loop c inc s k => co.InPlace (.loop c inc s) k ∧ co.ContInPlace k
  | _ => True

variable {co : Coroutine σ} {s t x : Block σ} {k k' : CoCont σ} {n : ℤ}

/-- The `case` label of an `await` is found where the `await` is. -/
theorem findCase_expand (co : Coroutine σ) (s : Block σ) (k : CoCont σ) (hn : n ≠ 0) :
    findCase n s.expand (co.expandCont k) = (s.findAwait n k).map fun r =>
      (.brk, .loop (fun _ => true) id (awaitBody n r.1.expand) (co.expandCont r.2)) := by
  induction s generalizing k with
  | seq s t ihs iht =>
      have hs := ihs (k := .seq t k)
      rw [expandCont] at hs
      simp only [Block.expand, findCase, Block.findAwait, Option.map_or, hs, iht]
  | ite c s t ihs iht =>
      simp only [Block.expand, findCase, Block.findAwait, Option.map_or, ihs, iht]
  | loop c inc s ih => exact ih (k := .loop c inc s k)
  | await m x =>
      by_cases hm : m = n
      · subst hm
        simp [Block.expand, awaitImpl, awaitBody, findCase, Block.findAwait]
      · simp [Block.expand, awaitImpl, awaitBody, findCase, Block.findAwait, hm]
  | _ => rfl

/-- A plain statement is in place anywhere. -/
theorem inPlace_of_plain (h : s.plain = true) (k : CoCont σ) : co.InPlace s k := by
  have hawaits := awaits_of_plain h
  refine ⟨?_, by simp [hawaits], by simp [hawaits], fun n r hr => ?_⟩
  · induction s with
    | seq s t ihs iht | ite c s t ihs iht =>
        obtain ⟨hs, ht⟩ := Bool.and_eq_true_iff.mp h
        obtain ⟨hs', ht'⟩ := List.append_eq_nil_iff.mp hawaits
        exact Bool.and_eq_true_iff.mpr ⟨ihs hs hs', iht ht ht'⟩
    | loop c inc s ih => exact ih h hawaits
    | await label x => cases h
    | _ => rfl
  · have hmem := findAwait_mem hr
    simp [hawaits] at hmem

/-- The first of two statements is in place before the second one. -/
theorem InPlace.fst (h : co.InPlace (.seq s t) k) : co.InPlace s (.seq t k) where
  flat := (Bool.and_eq_true_iff.mp h.flat).1
  nodup := (List.nodup_append.mp h.nodup).1
  pos := fun n hn => h.pos n (List.mem_append_left _ hn)
  found := fun n r hr => h.found n r (by simp [Block.findAwait, hr])

/-- The second of two statements is in place. -/
theorem InPlace.snd (h : co.InPlace (.seq s t) k) : co.InPlace t k where
  flat := (Bool.and_eq_true_iff.mp h.flat).2
  nodup := (List.nodup_append.mp h.nodup).2.1
  pos := fun n hn => h.pos n (List.mem_append_right _ hn)
  found := fun n r hr => h.found n r (findAwait_right h.nodup hr)

/-- The branches of a conditional in place are in place. -/
theorem InPlace.ite {c : σ → Bool → Bool} (h : co.InPlace (.ite c s t) k) :
    co.InPlace s k ∧ co.InPlace t k := by
  constructor
  · refine ⟨(Bool.and_eq_true_iff.mp h.flat).1, (List.nodup_append.mp h.nodup).1,
      fun n hn => h.pos n (List.mem_append_left _ hn), fun n r hr => ?_⟩
    exact h.found n r (by simp [Block.findAwait, hr])
  · exact ⟨(Bool.and_eq_true_iff.mp h.flat).2, (List.nodup_append.mp h.nodup).2.1,
      fun n hn => h.pos n (List.mem_append_right _ hn),
      fun n r hr => h.found n r (findAwait_right h.nodup hr)⟩

/-- The body of a loop in place is in place inside the loop. -/
theorem InPlace.loop {c : σ → Bool → Bool} {inc : σ → σ} (h : co.InPlace (.loop c inc s) k) :
    co.InPlace s (.loop c inc s k) :=
  ⟨h.flat, h.nodup, h.pos, h.found⟩

/-- The block is in its place. -/
theorem Wf.inPlace (h : co.Wf) : co.InPlace co.body .leave :=
  ⟨h.flat, h.nodup, h.pos, fun _ _ hr => hr⟩

/-- What is left to do after an `await` is in its place. -/
theorem ContInPlace.of_findAwait (hs : co.InPlace s k) (hk : co.ContInPlace k)
    (h : s.findAwait n k = some (x, k')) : co.ContInPlace k' := by
  induction s generalizing k with
  | seq s t ihs iht =>
      rcases Option.or_eq_some_iff.mp h with hr | ⟨-, hr⟩
      · exact ihs hs.fst ⟨hs.snd, hk⟩ hr
      · exact iht hs.snd hk hr
  | ite c s t ihs iht =>
      rcases Option.or_eq_some_iff.mp h with hr | ⟨-, hr⟩
      · exact ihs hs.ite.1 hk hr
      · exact iht hs.ite.2 hk hr
  | loop c inc s ih => exact ih hs.loop ⟨hs, hk⟩ h
  | await m y =>
      simp only [Block.findAwait, Option.ite_none_right_eq_some, Option.some.injEq,
        Prod.mk.injEq] at h
      obtain ⟨-, -, rfl⟩ := h
      exact hk
  | _ => cases h

/-! ### Jumps in the block -/

/-- The function as a machine. -/
abbrev cMachine (co : Coroutine σ) :
    Machine (CStmt σ × CCont σ) (σ × CoroState) :=
  Jumps.machine co.function

/-- What is left to do in the `for` of `async`. -/
def asyncFrame (co : Coroutine σ) : CCont σ :=
  .loop (fun s => !coroIsDone s.2) (fun s => (s.1, -1)) (asyncBody co.body.expand)
    (.seq co.post.expand .stop)

/-- `goto coro_cont` goes to the `continue` in the loop of `coro_async`. -/
theorem findLabel_coroCont (co : Coroutine σ) :
    findLabel .coroCont co.function .stop = some (.cont, co.asyncFrame) := by
  have hpre : ∀ k : CCont σ, findLabel .coroCont co.pre.expand k = none := fun k =>
    findLabel_eq_none_iff.mpr (by simp)
  simp [function, findLabel, hpre, async, asyncBody, asyncFrame]

/-- `goto coro_break` goes to the `break` in the loop of `coro_async`. -/
theorem findLabel_coroBreak (co : Coroutine σ) :
    findLabel .coroBreak co.function .stop = some (.brk, co.asyncFrame) := by
  have hpre : ∀ k : CCont σ, findLabel .coroBreak co.pre.expand k = none := fun k =>
    findLabel_eq_none_iff.mpr (by simp)
  simp [function, findLabel, hpre, async, asyncBody, asyncFrame]

variable {u : σ} {c : ℤ} {r : Resume σ}

/-- The `for` of `async` ends when the coroutine is done. -/
theorem leads_done (co : Coroutine σ) (u : σ) :
    co.cMachine.Leads 2 (async co.body.expand, .seq co.post.expand .stop) (u, -1)
      (co.post.expand, .stop) (u, -1) :=
  .next (machine_step_loop_end rfl) (.next rfl .refl)

/-- `goto _coro_cont`: the coroutine is done. -/
theorem leads_coroCont (co : Coroutine σ) (u : σ) (c : CoroState) (k : CCont σ) :
    co.cMachine.Leads 4 (.goto .coroCont, k) (u, c) (co.post.expand, .stop) (u, -1) :=
  .next (machine_step_goto co.findLabel_coroCont) (.next rfl (co.leads_done u))

/-- `goto _coro_break`: the block is left as it is. -/
theorem leads_coroBreak (co : Coroutine σ) (u : σ) (c : CoroState) (k : CCont σ) :
    co.cMachine.Leads 3 (.goto .coroBreak, k) (u, c) (co.post.expand, .stop) (u, c) :=
  .next (machine_step_goto co.findLabel_coroBreak) (.next rfl (.next rfl .refl))

/-- The end of the block. -/
theorem leads_leave (co : Coroutine σ) (u : σ) (c : CoroState) :
    co.cMachine.Leads 4 (.skip, co.expandCont .leave) (u, c) (co.post.expand, .stop) (u, -1) :=
  .next rfl (.next rfl (co.leads_done u))

/-- `await` runs the awaited statement after it has saved the label. -/
theorem leads_await (co : Coroutine σ) (x : Block σ) (k : CoCont σ) (u : σ) (c : CoroState)
    (hn : 0 < n) : co.cMachine.Leads 6 (awaitImpl n x.expand, co.expandCont k) (u, c)
      (x.expand, co.expandCont (.await n x k)) (u, n) := by
  have hne : (n == -4) = false := by
    rw [beq_eq_false_iff_ne]
    omega
  have hcase (k : CCont σ) : findCase 0 (.loop (fun _ => true) id (awaitOuter x.expand)) k =
      some (x.expand, .loop (fun _ => true) id (awaitInner x.expand)
        (.loop (fun _ => true) id (awaitOuter x.expand) k)) := by
    simp [findCase, awaitOuter, awaitInner]
  refine .next rfl (.next rfl (.next rfl (.next (machine_step_loop rfl) (.next rfl ?_))))
  simp only [hne, Bool.false_eq_true, if_false]
  exact .next (machine_step_switch (hcase _)) .refl

/-- After the awaited statement the block is left, and the label stays. -/
theorem leads_awaited (co : Coroutine σ) (x : Block σ) (k : CCont σ) (u : σ) (hc : -1 ≤ c) :
    co.cMachine.Leads 5 (.loop (fun _ => true) id (awaitInner x.expand), k) (u, c)
      (co.post.expand, .stop) (u, c) := by
  have hle : -2 ≤ c := by omega
  refine .next (machine_step_loop rfl) (.next rfl ?_)
  simp only [hle, decide_true, if_true]
  exact co.leads_coroBreak u c _

/-- A `break` in the awaited statement is a `co_return`. -/
theorem leads_coReturn (co : Coroutine σ) (x : Block σ) (k : CoCont σ) (u : σ) (hc : -1 ≤ c) :
    co.cMachine.Leads 8 (.brk, co.expandCont (.await n x k)) (u, c)
      (co.post.expand, .stop) (u, -1) := by
  refine .next rfl (.next rfl (.next (machine_step_loop rfl) (.next rfl ?_)))
  simp only [id_eq, hc, decide_true, if_true]
  exact co.leads_coroCont u c _

/-- The way into the block, when the coroutine is not done. -/
theorem leads_enter (co : Coroutine σ) (u : σ) (hc : 0 ≤ c) {target : CStmt σ × CCont σ}
    (h : findCase c (.case 0 co.body.expand) (.switch co.asyncFrame) = some target) :
    co.cMachine.Leads 6 (.skip, co.expandCont .enter) (u, c) target (u, c) := by
  have hne : ∀ m : ℤ, m < 0 → (c == m) = false := fun m hm =>
    beq_eq_false_iff_ne.mpr (Int.ne_of_gt (Int.lt_of_lt_of_le hm hc))
  have h₁ := hne (-1) (by decide)
  have h₂ := hne (-2) (by decide)
  have h₃ := hne (-3) (by decide)
  refine .next rfl (.next rfl (.next (machine_step_loop (by simp [coroIsDone, h₁]))
    (.next rfl ?_)))
  simp only [h₂, Bool.false_eq_true, if_false]
  refine .next rfl ?_
  simp only [h₃, Bool.false_eq_true, if_false]
  exact .next (machine_step_switch h) .refl

/-! ### The simulation -/

/-- A saved position is at least `-1`. -/
theorem Saved.le (h : co.Saved r c) : -1 ≤ c := by
  cases h with
  | ready => decide
  | suspended hn _ => exact Int.le_of_lt (Int.lt_trans (by decide) hn)
  | finished => exact Int.le_refl _

/-- `coro_is_done` says whether the machine has finished. -/
theorem Saved.isDone (h : co.Saved r c) : coroIsDone c = r.isDone := by
  cases h with
  | ready | finished => rfl
  | suspended hn _ => exact beq_eq_false_iff_ne.mpr (Int.ne_of_gt (Int.lt_trans (by decide) hn))

/-- **States that belong together.** -/
def States (co : Coroutine σ) (s : σ × Resume σ) (s' : σ × CoroState) : Prop :=
  s'.1 = s.1 ∧ co.Saved s.2 s'.2

/-- **Configurations that belong together.** -/
structure Configs (co : Coroutine σ) (c₁ : Block σ × CoCont σ) (s₁ : σ × Resume σ)
    (c₂ : CStmt σ × CCont σ) (s₂ : σ × CoroState) : Prop where
  config : c₂ = (c₁.1.expand, co.expandCont c₁.2)
  states : co.States s₁ s₂
  place : co.InPlace c₁.1 c₁.2
  cont : co.ContInPlace c₁.2

/-- What follows the block. -/
theorem Wf.post_configs (h : co.Wf) {u : σ} {r : Resume σ} {c : ℤ} (hr : co.Saved r c) :
    co.Configs (co.post, .stop) (u, r) (co.post.expand, .stop) (u, c) :=
  ⟨rfl, ⟨rfl, hr⟩, inPlace_of_plain h.post _, trivial⟩

/-- Where the function enters the block it goes on from the saved number. -/
theorem Wf.enter_matched (h : co.Wf) {u : σ} {r : Resume σ} {c : ℤ} (hr : co.Saved r c) :
    Matched co.cMachine co.States co.Configs (.skip, co.expandCont .enter) (u, c)
      (co.step (.skip, .enter) (u, r)) := by
  cases hr with
  | ready =>
      have hcase : findCase 0 (.case 0 co.body.expand) (.switch co.asyncFrame) =
          some (co.body.expand, co.expandCont .leave) := if_pos rfl
      exact ⟨5, _, _, co.leads_enter u (Int.le_refl 0) hcase, rfl, ⟨rfl, .ready⟩, h.inPlace,
        trivial⟩
  | @suspended _ x k hn hfind =>
      have hcase : findCase c (.case 0 co.body.expand) (.switch co.asyncFrame) =
          some (.brk, .loop (fun _ => true) id (awaitBody c x.expand) (co.expandCont k)) := by
        have hne : (0 : ℤ) ≠ c := Int.ne_of_lt hn
        have hexpand := co.findCase_expand co.body .leave hne.symm
        rw [hfind] at hexpand
        exact (if_neg hne).trans hexpand
      have hbrk : co.cMachine.Leads 1
          (.brk, .loop (fun _ => true) id (awaitBody c x.expand) (co.expandCont k)) (u, c)
          (.skip, co.expandCont k) (u, c) := .next rfl .refl
      exact ⟨6, _, _, (co.leads_enter u (Int.le_of_lt hn) hcase).trans hbrk, rfl,
        ⟨rfl, .suspended hn hfind⟩, inPlace_of_plain rfl _,
        ContInPlace.of_findAwait h.inPlace trivial hfind⟩
  | finished =>
      exact ⟨3, _, _, .next rfl (.next rfl (co.leads_done u)), h.post_configs .finished⟩

/-- **One move of the coroutine** is matched by the function. -/
theorem Wf.matched (h : co.Wf) {s : Block σ} {k : CoCont σ} {u : σ} {r : Resume σ} {c : ℤ}
    (hr : co.Saved r c) (hs : co.InPlace s k) (hk : co.ContInPlace k) :
    Matched co.cMachine co.States co.Configs (s.expand, co.expandCont k) (u, c)
      (co.step (s, k) (u, r)) := by
  cases s with
  | skip =>
      cases k with
      | stop => exact ⟨0, _, _, _, .refl, rfl, rfl, hr⟩
      | enter => exact h.enter_matched hr
      | leave => exact ⟨3, _, _, co.leads_leave u c, h.post_configs .finished⟩
      | seq t k => exact ⟨0, _, _, .next rfl .refl, rfl, ⟨rfl, hr⟩, hk.1, hk.2⟩
      | loop c' inc s k => exact ⟨0, _, _, .next rfl .refl, rfl, ⟨rfl, hr⟩, hk.1, hk.2⟩
      | await n x k =>
          exact ⟨5, _, _, .next rfl (co.leads_awaited x _ u hr.le), h.post_configs hr⟩
  | exec f =>
      cases hf : f u with
      | none =>
          simp only [step, hf]
          exact ⟨0, _, _, .refl, by simp [Jumps.machine, Jumps.step, Block.expand, hf]⟩
      | some u' =>
          simp only [step, hf]
          refine ⟨0, (.skip, co.expandCont k), (u', c), .next ?_ .refl, rfl, ⟨rfl, hr⟩,
            inPlace_of_plain rfl _, hk⟩
          simp [Jumps.machine, Jumps.step, Block.expand, hf]
  | call =>
      refine ⟨0, _, _, (.skip, co.expandCont k), (u, c), .refl, rfl, ⟨rfl, hr⟩, fun v v' hv => ?_⟩
      exact ⟨rfl, hv, inPlace_of_plain rfl _, hk⟩
  | seq s t => exact ⟨0, _, _, .next rfl .refl, rfl, ⟨rfl, hr⟩, hs.fst, hs.snd, hk⟩
  | ite c' s t =>
      have hcond : withDone c' (u, c) = c' u r.isDone := congrArg (c' u) hr.isDone
      cases hc : c' u r.isDone with
      | true =>
          have hmove : co.step (.ite c' s t, k) (u, r) = .next (s, k) (u, r) := by simp [step, hc]
          rw [hmove]
          refine ⟨0, (s.expand, co.expandCont k), (u, c), .next ?_ .refl, rfl, ⟨rfl, hr⟩,
            hs.ite.1, hk⟩
          simp [machine_step_ite, Block.expand, hcond, hc]
      | false =>
          have hmove : co.step (.ite c' s t, k) (u, r) = .next (t, k) (u, r) := by simp [step, hc]
          rw [hmove]
          refine ⟨0, (t.expand, co.expandCont k), (u, c), .next ?_ .refl, rfl, ⟨rfl, hr⟩,
            hs.ite.2, hk⟩
          simp [machine_step_ite, Block.expand, hcond, hc]
  | loop c' inc s =>
      have hcond : withDone c' (u, c) = c' u r.isDone := congrArg (c' u) hr.isDone
      cases hc : c' u r.isDone with
      | true =>
          have hmove : co.step (.loop c' inc s, k) (u, r) = .next (s, .loop c' inc s k) (u, r) := by
            simp [step, hc]
          rw [hmove]
          exact ⟨0, _, _, .next (machine_step_loop (hcond.trans hc)) .refl, rfl, ⟨rfl, hr⟩, hs.loop,
            hs, hk⟩
      | false =>
          have hmove : co.step (.loop c' inc s, k) (u, r) = .next (.skip, k) (u, r) := by
            simp [step, hc]
          rw [hmove]
          exact ⟨0, _, _, .next (machine_step_loop_end (hcond.trans hc)) .refl, rfl, ⟨rfl, hr⟩,
            inPlace_of_plain rfl _, hk⟩
  | brk =>
      cases k with
      | stop => exact ⟨0, _, _, .refl, rfl⟩
      | enter => exact ⟨1, _, _, .next rfl .refl, rfl⟩
      | leave => exact ⟨3, _, _, .next rfl (.next rfl (co.leads_done u)), h.post_configs .finished⟩
      | seq t k => exact ⟨0, _, _, .next rfl .refl, rfl, ⟨rfl, hr⟩, inPlace_of_plain rfl _, hk.2⟩
      | loop c' inc s k =>
          exact ⟨0, _, _, .next rfl .refl, rfl, ⟨rfl, hr⟩, inPlace_of_plain rfl _, hk.2⟩
      | await n x k => exact ⟨7, _, _, co.leads_coReturn x k u hr.le, h.post_configs .finished⟩
  | cont =>
      cases k with
      | stop => exact ⟨0, _, _, .refl, rfl⟩
      | enter => exact ⟨1, _, _, .next rfl .refl, rfl⟩
      | leave => exact ⟨3, _, _, .next rfl (.next rfl (co.leads_done u)), h.post_configs .finished⟩
      | seq t k => exact ⟨0, _, _, .next rfl .refl, rfl, ⟨rfl, hr⟩, inPlace_of_plain rfl _, hk.2⟩
      | loop c' inc s k => exact ⟨0, _, _, .next rfl .refl, rfl, ⟨rfl, hr⟩, hk.1, hk.2⟩
      | await n x k =>
          exact ⟨5, _, _, .next rfl (co.leads_awaited x _ u hr.le), h.post_configs hr⟩
  | await n x =>
      have hpos : 0 < n := hs.pos n List.mem_cons_self
      have hfound := hs.found n (x, k) (if_pos rfl)
      exact ⟨5, _, _, co.leads_await x k u c hpos, rfl, ⟨rfl, .suspended hpos hfound⟩,
        inPlace_of_plain hs.flat _, trivial⟩

/-- **The macros simulate the coroutine.** -/
theorem Wf.simulation (h : co.Wf) : Simulation co.machine co.cMachine co.States
    fun c s d t => ∃ j d' t', co.cMachine.Leads j d t d' t' ∧ co.Configs c s d' t' := by
  refine Simulation.of_leads (fun {s s'} hE => ?_) fun {c s d t} hR => ?_
  · obtain ⟨u, r⟩ := s
    obtain ⟨u', c⟩ := s'
    obtain ⟨hu, hr⟩ := hE
    exact ⟨1, _, _, .next rfl .refl, rfl, ⟨hu, hr⟩, inPlace_of_plain h.pre _, trivial⟩
  · obtain ⟨s₀, k⟩ := c
    obtain ⟨u, r⟩ := s
    obtain ⟨u', c⟩ := t
    obtain ⟨rfl, ⟨hu, hr⟩, hs, hk⟩ := hR
    obtain rfl : u' = u := hu
    exact h.matched hr hs hk

end Coroutine

/-! ### Invocations -/

/-- A step of the environment between two invocations. It leaves the coroutine alone. -/
def onUser {α : Type} (env : σ → σ) (s : σ × α) : σ × α :=
  (env s.1, s.2)

/-- **The function does what the coroutine does**, over any invocations with an environment between
them, and the saved number is the label of the `await` to go on from. -/
theorem coroutine_implements {co : Coroutine σ} (h : co.Wf) (envs : List (σ → σ)) (u : σ) :
    (∀ n u' c, co.cMachine.invocations n (envs.map onUser) (u, coroInitializer) = some (u', c) →
      ∃ m r, co.machine.invocations m (envs.map onUser) (u, .ready) = some (u', r) ∧
        co.Saved r c) ∧
    (∀ n u' r, co.machine.invocations n (envs.map onUser) (u, .ready) = some (u', r) →
      ∃ m c, co.cMachine.invocations m (envs.map onUser) (u, coroInitializer) = some (u', c) ∧
        co.Saved r c) := by
  have hstates : co.States (u, .ready) (u, coroInitializer) := ⟨rfl, .ready⟩
  have henv : List.Forall₂ (fun e e' => ∀ s s', co.States s s' → co.States (e s) (e' s'))
      (envs.map onUser) (envs.map onUser) := by
    induction envs with
    | nil => exact .nil
    | cons env envs ih => exact .cons (fun s s' hs => ⟨congrArg env hs.1, hs.2⟩) ih
  constructor
  · intro n u' c hrun
    obtain ⟨m, ⟨v, r⟩, hrun', hv, hr⟩ := h.simulation.invocations_of' henv hstates hrun
    obtain rfl : u' = v := hv
    exact ⟨m, r, hrun', hr⟩
  · intro n u' r hrun
    obtain ⟨m, ⟨v, c⟩, hrun', hv, hr⟩ := h.simulation.invocations_of henv hstates hrun
    obtain rfl : v = u' := hv
    exact ⟨m, c, hrun', hr⟩

/-- What the coroutine of `test/testsem.c` does, in the order of the file. -/
inductive TestsemAct
  | awaiting
  | wait
  | pastFirst
  | pastLast
  | read
  | status
  | stop
  deriving DecidableEq

/-- A statement that does something. -/
def Block.act (a : TestsemAct) : Block (List TestsemAct) :=
  .exec fun l => some (l ++ [a])

/-- `coro1` of `test/testsem.c` -/
def coro1 : Coroutine (List TestsemAct) where
  pre := .skip
  body :=
    .seq (.act .awaiting) <|
    .seq (.await 1 (.act .wait)) <|
    .seq (.act .pastFirst) <|
    .seq (.await 2 (.act .wait)) <|
    .seq (.act .pastLast) <|
    .seq (.await 3 (.act .read)) (.act .status)
  post := .ite (fun _ done => done) (.act .stop) .skip

/-- After four invocations it is done. -/
theorem coroutine_implements_coro1 : ∃ m r,
    coro1.machine.invocations m (List.replicate 4 (onUser id)) ([], .ready) =
      some ([.awaiting, .wait, .pastFirst, .wait, .pastLast, .read, .status, .stop], r) ∧
        coro1.Saved r (-1) := by
  have hwf : coro1.Wf := ⟨rfl, rfl, rfl, by decide, by decide⟩
  have hrun : coro1.cMachine.invocations 40 ((List.replicate 4 id).map onUser)
      ([], coroInitializer) = some ([.awaiting, .wait, .pastFirst, .wait, .pastLast, .read,
        .status, .stop], -1) := by decide +kernel
  exact (coroutine_implements hwf (List.replicate 4 id) []).1 40 _ _ hrun

end IoEngine
