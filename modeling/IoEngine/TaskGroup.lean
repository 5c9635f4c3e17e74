import Mathlib.Algebra.Ring.Nat
import Mathlib.Data.List.Count
import Mathlib.Logic.Function.Basic
import IoEngine.IoTypes

/-!
# Task Groups

`task_group.c`: a handler that calls the user's when it has been called a number of times. The
count is in a block that the last call frees. A call of a handler whose block is freed follows a
dangling pointer, and so does the model, which returns `none`.

The handlers of several groups are called in any order (`groupRun`).

## Main results

* `taskGroup_run_isSome_iff`: the calls follow no dangling pointer **if and only if** no group is
  called more often than it has tasks.
* `taskGroup_calls_once`: in a run that follows none the user's handler is called **once, with the
  last task**, and the block is freed then.
-/

namespace IoEngine

/-- `task_group_ctx` -/
structure TaskGroupCtx where
  remainingTasks : UInt64
  hnd : IoHandler

/-- The blocks of the groups. -/
abbrev TaskGroups := Addr → Option TaskGroupCtx

/-- `task_group_callback` as the function pointer of a handler. -/
def taskGroupPtr : ℕ := 2

/-- `make_task_group`: the handler, with the blocks after it. -/
def makeTaskGroup (m : TaskGroups) (al : Alloc) (numTasks : UInt64) (hnd : IoHandler) :
    IoHandler × TaskGroups × Alloc :=
  match al.malloc with
  | (none, al) => (⟨none, 0⟩, m, al)
  | (some ctx, al) =>
      (⟨some taskGroupPtr, ctx⟩, Function.update m ctx (some ⟨numTasks, hnd⟩), al)

/-- `task_group_callback`: the blocks after it, and the user's handler if it was called. -/
def taskGroupCallback (m : TaskGroups) (arg : Addr) : Option (TaskGroups × Option IoHandler) := do
  let ctx ← m arg
  let ctx := { ctx with remainingTasks := ctx.remainingTasks - 1 }
  if ctx.remainingTasks = 0 then do
    let _ ← ctx.hnd.callback
    some (Function.update m arg none, some ctx.hnd)
  else some (Function.update m arg (some ctx), none)

/-- Calls of the handlers of groups, with the groups whose user's handler was called. Each call
returns before the next one is made: a user's handler that calls the handler of its own group,
whose block is not freed yet, is not such a run. -/
def groupRun (m : TaskGroups) : List Addr → Option (TaskGroups × List (Addr × IoHandler))
  | [] => some (m, [])
  | arg :: args => do
      let (m, called) ← taskGroupCallback m arg
      let (m, calls) ← groupRun m args
      some (m, (called.map fun hnd => (arg, hnd)).toList ++ calls)

/-- The number of calls that a group waits for. A count of 0 runs through all values. -/
def TaskGroupCtx.tasks (ctx : TaskGroupCtx) : ℕ :=
  if ctx.remainingTasks = 0 then 2 ^ 64 else ctx.remainingTasks.toNat

section

variable {m m' : TaskGroups} {arg : Addr} {args : List Addr} {ctx : TaskGroupCtx}
  {calls : List (Addr × IoHandler)} {called : Option IoHandler}

/-! ### One call -/

/-- A group waits for at least one call. -/
theorem TaskGroupCtx.tasks_pos (ctx : TaskGroupCtx) : 0 < ctx.tasks := by
  unfold tasks
  split
  next => decide
  next hne =>
    refine Nat.pos_of_ne_zero fun hzero => hne ?_
    exact UInt64.toNat_inj.mp hzero

/-- A count of 0 stands for `2^64` calls. -/
theorem TaskGroupCtx.tasks_eq (ctx : TaskGroupCtx) : ctx.tasks =
    if ctx.remainingTasks.toNat = 0 then 2 ^ 64 else ctx.remainingTasks.toNat := by
  simp only [tasks, ← UInt64.toNat_inj, UInt64.toNat_zero]

/-- The count after a call. -/
theorem TaskGroupCtx.toNat_sub_one (ctx : TaskGroupCtx) :
    (ctx.remainingTasks - 1).toNat + 1 = ctx.tasks := by
  have hbound := ctx.remainingTasks.toNat_lt
  have hsub : (ctx.remainingTasks - 1).toNat = (2 ^ 64 - 1 + ctx.remainingTasks.toNat) % 2 ^ 64 :=
    UInt64.toNat_sub ..
  rw [tasks_eq]
  split <;> omega

/-- The tasks that a group waits for, with the user's handler. -/
def TaskGroups.left (m : TaskGroups) (p : Addr) : Option (ℕ × IoHandler) :=
  (m p).map fun ctx => (ctx.tasks, ctx.hnd)

/-- Writing to one group leaves the others alone. -/
theorem left_update_of_ne {p : Addr} (hne : p ≠ arg) (c : Option TaskGroupCtx) :
    TaskGroups.left (Function.update m arg c) p = m.left p := by
  rw [TaskGroups.left, Function.update_of_ne hne, TaskGroups.left]

/-- A group that is called is there. -/
theorem left_of_callback (h : taskGroupCallback m arg = some (m', called)) :
    ∃ n hnd, m.left arg = some (n, hnd) := by
  obtain ⟨ctx, hctx, -⟩ := Option.bind_eq_some_iff.mp h
  exact ⟨ctx.tasks, ctx.hnd, by rw [TaskGroups.left, hctx]; rfl⟩

/-- **The last task** calls the user's handler and frees the block. -/
theorem taskGroupCallback_last {hnd : IoHandler} (h : m.left arg = some (1, hnd)) :
    taskGroupCallback m arg =
      hnd.callback.map fun _ => (Function.update m arg none, some hnd) := by
  obtain ⟨ctx, hctx, hleft⟩ := Option.map_eq_some_iff.mp h
  obtain ⟨htasks, rfl⟩ := Prod.mk.inj hleft
  have hzero : ctx.remainingTasks - 1 = 0 := by
    rw [← UInt64.toNat_inj, UInt64.toNat_zero]
    have hcount := ctx.toNat_sub_one
    omega
  simp only [taskGroupCallback, hctx, hzero, bind, Option.bind_some, if_true]
  cases ctx.hnd.callback <;> rfl

/-- **Any other task** is counted. -/
theorem taskGroupCallback_counted {n : ℕ} {hnd : IoHandler}
    (h : m.left arg = some (n + 2, hnd)) :
    ∃ ctx, taskGroupCallback m arg = some (Function.update m arg (some ctx), none) ∧
      ctx.tasks = n + 1 ∧ ctx.hnd = hnd := by
  obtain ⟨ctx, hctx, hleft⟩ := Option.map_eq_some_iff.mp h
  obtain ⟨htasks, rfl⟩ := Prod.mk.inj hleft
  have hcount := ctx.toNat_sub_one
  have hne : ctx.remainingTasks - 1 ≠ 0 := by
    rw [ne_eq, ← UInt64.toNat_inj, UInt64.toNat_zero]
    omega
  refine ⟨{ ctx with remainingTasks := ctx.remainingTasks - 1 }, ?_, ?_, rfl⟩
  · simp only [taskGroupCallback, hctx, hne, bind, Option.bind_some, if_false]
  · have hzero : (ctx.remainingTasks - 1).toNat ≠ 0 := by omega
    rw [TaskGroupCtx.tasks_eq, if_neg hzero]
    exact Nat.succ.inj (hcount.trans htasks)

/-- What a group still waits for is at least one call. -/
theorem tasks_pos_of_left {n : ℕ} {hnd : IoHandler} (h : m.left arg = some (n, hnd)) : 0 < n := by
  obtain ⟨ctx, -, hleft⟩ := Option.map_eq_some_iff.mp h
  obtain ⟨rfl, -⟩ := Prod.mk.inj hleft
  exact ctx.tasks_pos

/-! ### Calls in any order -/

/-- **What a group has become** after `k` of its calls. -/
def GroupAfter (n : ℕ) (hnd : IoHandler) (k : ℕ) (p : Addr) (m' : TaskGroups)
    (calls : List (Addr × IoHandler)) : Prop :=
  (k < n ∧ m'.left p = some (n - k, hnd) ∧ calls.filter (·.1 = p) = []) ∨
    (k = n ∧ m' p = none ∧ calls.filter (·.1 = p) = [(p, hnd)] ∧ hnd.callback.isSome = true)

/-- A call does nothing to other groups. -/
theorem taskGroupCallback_of_ne {p : Addr} (hne : p ≠ arg)
    (h : taskGroupCallback m arg = some (m', called)) : m' p = m p := by
  obtain ⟨ctx, -, h⟩ := Option.bind_eq_some_iff.mp h
  dsimp only at h
  split at h
  next =>
    obtain ⟨f, -, h⟩ := Option.bind_eq_some_iff.mp h
    obtain ⟨rfl, -⟩ := Prod.mk.inj (Option.some.inj h)
    exact Function.update_of_ne hne _ _
  next =>
    obtain ⟨rfl, -⟩ := Prod.mk.inj (Option.some.inj h)
    exact Function.update_of_ne hne _ _

/-- A run is its first call, and the run of the others. -/
theorem groupRun_cons (h : groupRun m (arg :: args) = some (m', calls)) :
    ∃ m₁ called rest, taskGroupCallback m arg = some (m₁, called) ∧
      groupRun m₁ args = some (m', rest) ∧
      calls = (called.map fun hnd => (arg, hnd)).toList ++ rest := by
  obtain ⟨⟨m₁, called⟩, h₁, h⟩ := Option.bind_eq_some_iff.mp h
  obtain ⟨⟨m₂, rest⟩, h₂, h⟩ := Option.bind_eq_some_iff.mp h
  obtain ⟨rfl, rfl⟩ := Prod.mk.inj (Option.some.inj h)
  exact ⟨m₁, called, rest, h₁, h₂, rfl⟩

/-- The handlers that a call of another group adds are not this group's. -/
theorem filter_called_of_ne {p : Addr} (hne : p ≠ arg) (rest : List (Addr × IoHandler)) :
    ((called.map fun hnd => (arg, hnd)).toList ++ rest).filter (·.1 = p) =
      rest.filter (·.1 = p) := by
  cases called <;> simp [Ne.symm hne]

/-- A freed block is not used any more, and its handler is not called. -/
theorem groupRun_freed {p : Addr} (hp : m p = none) (h : groupRun m args = some (m', calls)) :
    p ∉ args ∧ m' p = none ∧ calls.filter (·.1 = p) = [] := by
  induction args generalizing m calls with
  | nil =>
      obtain ⟨rfl, rfl⟩ := Prod.mk.inj (Option.some.inj h)
      exact ⟨List.not_mem_nil, hp, rfl⟩
  | cons arg args ih =>
      obtain ⟨m₁, called, rest, h₁, h₂, rfl⟩ := groupRun_cons h
      have hne : p ≠ arg := by
        rintro rfl
        obtain ⟨n, hnd, hleft⟩ := left_of_callback h₁
        simp [TaskGroups.left, hp] at hleft
      obtain ⟨hmem, hfreed, hcalls⟩ := ih ((taskGroupCallback_of_ne hne h₁).trans hp) h₂
      refine ⟨?_, hfreed, (filter_called_of_ne hne rest).trans hcalls⟩
      exact fun hin => (List.mem_cons.mp hin).elim hne hmem

/-- **The calls of one group among those of others.** -/
theorem groupRun_group {p : Addr} {n : ℕ} {hnd : IoHandler} (hp : m.left p = some (n, hnd))
    (h : groupRun m args = some (m', calls)) : GroupAfter n hnd (args.count p) p m' calls := by
  induction args generalizing m n calls with
  | nil =>
      obtain ⟨rfl, rfl⟩ := Prod.mk.inj (Option.some.inj h)
      exact .inl ⟨tasks_pos_of_left hp, hp, rfl⟩
  | cons arg args ih =>
      obtain ⟨m₁, called, rest, h₁, h₂, rfl⟩ := groupRun_cons h
      by_cases hne : p = arg
      · subst hne
        rw [List.count_cons_self]
        have hpos := tasks_pos_of_left hp
        by_cases hlast : n = 1
        · subst hlast
          rw [taskGroupCallback_last hp] at h₁
          obtain ⟨f, hf, h₁⟩ := Option.map_eq_some_iff.mp h₁
          obtain ⟨rfl, rfl⟩ := Prod.mk.inj h₁
          obtain ⟨hmem, hfreed, hcalls⟩ := groupRun_freed (Function.update_self ..) h₂
          refine .inr ⟨by rw [List.count_eq_zero.mpr hmem], hfreed, ?_, by rw [hf]; rfl⟩
          simp [hcalls]
        · obtain ⟨j, rfl⟩ : ∃ j, n = j + 2 := ⟨n - 2, by omega⟩
          obtain ⟨ctx, hcall, htasks, rfl⟩ := taskGroupCallback_counted hp
          obtain ⟨rfl, rfl⟩ := Prod.mk.inj (Option.some.inj (hcall.symm.trans h₁))
          have hleft : TaskGroups.left (Function.update m p (some ctx)) p =
              some (j + 1, ctx.hnd) := by
            simp [TaskGroups.left, htasks]
          rcases ih hleft h₂ with ⟨hlt, hrest, hcalls⟩ | ⟨hk, hfreed, hcalls, hcb⟩
          · refine .inl ⟨by omega, ?_, hcalls⟩
            rw [hrest]
            congr 2
            omega
          · exact .inr ⟨by omega, hfreed, hcalls, hcb⟩
      · rw [List.count_cons_of_ne (Ne.symm hne)]
        have hleft : m₁.left p = some (n, hnd) := by
          rw [TaskGroups.left, taskGroupCallback_of_ne hne h₁]
          exact hp
        have hrest := ih hleft h₂
        unfold GroupAfter at hrest ⊢
        rwa [filter_called_of_ne hne]

/-- The group may be called as often as it is among the calls. -/
def GroupCovered (m : TaskGroups) (args : List Addr) (p : Addr) : Prop :=
  ∃ n hnd, m.left p = some (n, hnd) ∧ args.count p ≤ n ∧
    (args.count p = n → hnd.callback.isSome = true)

/-- A call of another group leaves what is left to this one. -/
theorem GroupCovered.of_ne {p : Addr} (hne : p ≠ arg) (h : GroupCovered m (arg :: args) p)
    (c : Option TaskGroupCtx) : GroupCovered (Function.update m arg c) args p := by
  rw [GroupCovered, List.count_cons_of_ne (Ne.symm hne)] at h
  rwa [GroupCovered, left_update_of_ne hne]

/-- A call that is covered leaves the others covered. -/
theorem GroupCovered.step (h : ∀ p ∈ arg :: args, GroupCovered m (arg :: args) p) :
    ∃ m₁ called, taskGroupCallback m arg = some (m₁, called) ∧
      ∀ p ∈ args, GroupCovered m₁ args p := by
  obtain ⟨n, hnd, hleft, hle, hcb⟩ := h arg List.mem_cons_self
  rw [List.count_cons_self] at hle hcb
  by_cases hlast : n = 1
  · subst hlast
    have hnone : args.count arg = 0 := by omega
    obtain ⟨f, hf⟩ := Option.isSome_iff_exists.mp (hcb (by rw [hnone]))
    refine ⟨_, _, (taskGroupCallback_last hleft).trans (by rw [hf]; rfl), fun p hp => ?_⟩
    have hne : p ≠ arg := by
      rintro rfl
      exact List.count_eq_zero.mp hnone hp
    exact (h p (List.mem_cons_of_mem _ hp)).of_ne hne none
  · obtain ⟨j, rfl⟩ : ∃ j, n = j + 2 := ⟨n - 2, by omega⟩
    obtain ⟨ctx, hcall, htasks, rfl⟩ := taskGroupCallback_counted hleft
    refine ⟨_, _, hcall, fun p hp => ?_⟩
    by_cases hne : p = arg
    · subst hne
      refine ⟨j + 1, ctx.hnd, by simp [TaskGroups.left, htasks], by omega, fun hk => hcb ?_⟩
      omega
    · exact (h p (List.mem_cons_of_mem _ hp)).of_ne hne (some ctx)

/-- **The calls follow no dangling pointer if and only if** no group is called more often than it
has tasks, and the last task finds a callback. -/
theorem taskGroup_run_isSome_iff :
    (groupRun m args).isSome = true ↔ ∀ p ∈ args, GroupCovered m args p := by
  constructor
  · intro hsome p hp
    obtain ⟨⟨m', calls⟩, hrun⟩ := Option.isSome_iff_exists.mp hsome
    cases hleft : m.left p with
    | none =>
        have hfree : m p = none := Option.map_eq_none_iff.mp hleft
        exact absurd hp (groupRun_freed hfree hrun).1
    | some r =>
        obtain ⟨n, hnd⟩ := r
        rcases groupRun_group hleft hrun with ⟨hlt, -, -⟩ | ⟨hk, -, -, hcb⟩
        · exact ⟨n, hnd, hleft, hlt.le, fun hk => absurd hk hlt.ne⟩
        · exact ⟨n, hnd, hleft, hk.le, fun _ => hcb⟩
  · intro h
    induction args generalizing m with
    | nil => rfl
    | cons arg args ih =>
        obtain ⟨m₁, called, hcall, hrest⟩ := GroupCovered.step h
        obtain ⟨⟨m', calls⟩, hrun⟩ := Option.isSome_iff_exists.mp (ih hrest)
        simp [groupRun, hcall, hrun]

/-- A new group waits for all its tasks. -/
theorem makeTaskGroup_left {al al' : Alloc} {numTasks : UInt64} {hnd grp : IoHandler}
    (hmake : makeTaskGroup m al numTasks hnd = (grp, m', al'))
    (hcb : grp.callback.isSome = true) :
    m'.left grp.ctx = some ((⟨numTasks, hnd⟩ : TaskGroupCtx).tasks, hnd) := by
  unfold makeTaskGroup at hmake
  split at hmake
  next =>
    obtain ⟨rfl, -, -⟩ := Prod.mk.inj hmake
    cases hcb
  next ctx al₁ hmalloc =>
    simp only [Prod.mk.injEq] at hmake
    obtain ⟨rfl, rfl, -⟩ := hmake
    simp [TaskGroups.left]

/-- **The user's handler is called once**, with the last task of its group, and the block is freed
then. Before that neither happens, whatever other groups are called in between. This is said of runs
that follow no dangling pointer and no `NULL`, and in which each call returns before the next one. -/
theorem taskGroup_calls_once {al al' : Alloc} {numTasks : UInt64} {hnd grp : IoHandler}
    (hmake : makeTaskGroup m al numTasks hnd = (grp, m', al'))
    (hcb : grp.callback.isSome = true) {m'' : TaskGroups}
    (hrun : groupRun m' args = some (m'', calls)) :
    args.count grp.ctx ≤ (⟨numTasks, hnd⟩ : TaskGroupCtx).tasks ∧
      calls.filter (·.1 = grp.ctx) =
        (if args.count grp.ctx = (⟨numTasks, hnd⟩ : TaskGroupCtx).tasks then [(grp.ctx, hnd)]
          else []) ∧
      (m'' grp.ctx = none ↔ args.count grp.ctx = (⟨numTasks, hnd⟩ : TaskGroupCtx).tasks) := by
  rcases groupRun_group (makeTaskGroup_left hmake hcb) hrun with
    ⟨hlt, hleft, hcalls⟩ | ⟨hk, hfreed, hcalls, -⟩
  · refine ⟨hlt.le, by rw [hcalls, if_neg hlt.ne], ⟨fun hnone => ?_, fun hk => absurd hk hlt.ne⟩⟩
    simp [TaskGroups.left, hnone] at hleft
  · exact ⟨hk.le, by rw [hcalls, if_pos hk], fun _ => hk, fun _ => hfreed⟩

/-- A group of two tasks that is called twice. -/
theorem taskGroup_calls_once_pair : ∃ (grp : IoHandler) (m' m'' : TaskGroups) (al' : Alloc)
    (calls : List (Addr × IoHandler)),
    makeTaskGroup (fun _ => none) ⟨fun _ => true, 0⟩ 2 ⟨some 5, 7⟩ = (grp, m', al') ∧
      groupRun m' [grp.ctx, grp.ctx] = some (m'', calls) ∧
      calls.filter (·.1 = grp.ctx) = [(grp.ctx, ⟨some 5, 7⟩)] ∧ m'' grp.ctx = none := by
  let hnd : IoHandler := ⟨some 5, 7⟩
  let m : TaskGroups := Function.update (fun _ => none) 0 (some ⟨2, hnd⟩)
  have hmake : makeTaskGroup (fun _ => none) ⟨fun _ => true, 0⟩ 2 hnd =
      (⟨some taskGroupPtr, 0⟩, m, ⟨fun _ => true, 1⟩) := rfl
  have hcovered : ∀ p ∈ [0, 0], GroupCovered m [0, 0] p := by
    intro p hp
    obtain rfl : p = 0 := by simpa using hp
    exact ⟨2, hnd, rfl, by decide, fun _ => rfl⟩
  obtain ⟨m₁, called, hcall, hrest⟩ := GroupCovered.step hcovered
  obtain ⟨m₂, called', hcall', -⟩ := GroupCovered.step hrest
  have hrun : groupRun m [0, 0] = some (m₂, (called.map fun hnd => (0, hnd)).toList ++
      ((called'.map fun hnd => (0, hnd)).toList ++ [])) := by
    simp [groupRun, hcall, hcall']
  obtain ⟨-, hcalls, hfreed⟩ := taskGroup_calls_once hmake rfl hrun
  exact ⟨_, m, m₂, _, _, hmake, hrun, hcalls, hfreed.mpr rfl⟩

end

end IoEngine
