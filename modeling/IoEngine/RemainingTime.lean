import Mathlib.Data.List.Infix
import IoEngine.LoopSteps

/-!
# The Remaining Time of an Event

The handler of a timed event is to find, in the user's variable, the time that remains until its
deadline. The functions that complete events each have their own notion of the current time:
`poll_loop` and the dispatcher use the time at which `poll` returned, the stop uses the time at
which it began, a timeout sets the variable to 0, and `iosvc_cancel` takes the time to be 0. The
log of a run records this time next to the time of the clock.

## Main results

* `signalled_toInt_iff`: the variable is **exact if and only if** `RemainingExact` holds of the
  two times and the deadline.
* `remainingTime_exact_iff`: in **every run of sound steps**, each handler of a timed event
  finds its remaining time if and only if `RemainingExact` does.
-/

open BinHeap RedBlack RedBlack.ColTree

namespace IoEngine

open FdTree Svc LawfulFdTree

/-! ### Exact remaining times -/

/-- **The condition on the current time.** `now` is what the completing function takes to be
the time, and `time` is what the clock says. A timeout is exact when the deadline has passed.
Every other completion is exact when the two times agree, or both are past the deadline, apart
from differences that the `int` does not hold. -/
def RemainingExact (code : IoErrcode) (deadline now time : ℤ) : Prop :=
  if code = .timeout then deadline ≤ time
  else if time < deadline then now < deadline ∧ (2 ^ 32 : ℤ) ∣ time - now
  else deadline ≤ now ∨ (2 ^ 32 : ℤ) ∣ deadline - now

/-- A completion that uses the time of the clock is exact. -/
theorem remainingExact_self {code : IoErrcode} {deadline time : ℤ} (hcode : code ≠ .timeout) :
    RemainingExact code deadline time time := by
  rw [RemainingExact, if_neg hcode]
  split
  next hlt => exact ⟨hlt, by simp⟩
  next hge => exact .inl (Int.not_lt.mp hge)

/-- An `int` holds the residue of a number that lies next to it. -/
theorem int32_toInt_ofInt_eq_iff {x y : ℤ} (h₀ : 0 ≤ y) (h : y < 2 ^ 31) :
    (Int32.ofInt x).toInt = y ↔ (2 ^ 32 : ℤ) ∣ x - y := by
  rw [Int32.toInt_ofInt, Int.bmod_def]
  have hsize : Int32.size = 2 ^ 32 := rfl
  rw [hsize]
  push_cast
  constructor
  · intro heq
    split at heq <;> omega
  · intro hdvd
    split <;> omega

/-- **The remaining time is exact** if and only if the condition on the current time holds. -/
theorem signalled_toInt_iff {code : IoErrcode} {deadline now time : ℤ}
    (h : deadline < time + 2 ^ 31) :
    (signalled code deadline now).toInt = max 0 (deadline - time) ↔
      RemainingExact code deadline now time := by
  have hzero : (0 : Int32).toInt = max 0 (deadline - time) ↔ deadline ≤ time := by
    rw [show (0 : Int32).toInt = 0 from rfl]
    omega
  unfold signalled RemainingExact
  split
  next => exact hzero
  next =>
    unfold remainingTime
    split
    next hnow =>
      rw [int32_toInt_ofInt_eq_iff (by omega) (by omega)]
      split
      next hlt =>
        rw [max_eq_right (by omega), show deadline - now - (deadline - time) = time - now by omega]
        exact ⟨fun hdvd => ⟨hnow, hdvd⟩, And.right⟩
      next hge =>
        rw [max_eq_left (by omega), sub_zero]
        exact ⟨.inr, fun hor => hor.resolve_left (by omega)⟩
    next hnow =>
      rw [hzero]
      split
      next hlt => exact ⟨fun hle => absurd hle (by omega), fun hand => absurd hand.1 hnow⟩
      next hge => exact ⟨fun _ => .inl (by omega), fun _ => by omega⟩

/-- What was right about the past, was right in the past. -/
theorem Timely.of_append {l' l : List Obs} (h : Timely (l' ++ l)) : Timely l := by
  induction l' with
  | nil => exact h
  | cons o l' ih =>
      refine ih ?_
      cases o with
      | invoked cause hnd time ints errs =>
          cases cause with
          | event fd wt code now => exact h.2
          | post | delay ent code => exact h
      | accepted what time | dequeued fd wt sound | cleaned fd sound => exact h

/-! ### Runs -/

section

variable {beh : Behaviour RbMem} {s : Svc RbMem} {alloc : Alloc} {clock : ℤ} {ints : Addr → Int32}
  {errs : Addr → IoErrcode}

/-- **The remaining time over every run.** In a state reached from a new service by sound steps,
let the log say that the handler of an event was called at time `t`, and that the event was last
accepted at `t₀` with the timeout `T`. The handler found its remaining time, if and only if the
function that completed the event used a right time. -/
theorem remainingTime_exact_iff (h : SoundSteps beh (iosvcCreate alloc clock ints errs) s)
    {l' l : List Obs} {fd : ℤ} {wt : WaitType} {code : IoErrcode} {now t t₀ T : ℤ}
    {hnd hnd' : IoHandler} {ints' : Addr → Int32} {errs' : Addr → IoErrcode} {p : Addr}
    (hlog : s.log = l' ++ .invoked (.event fd wt code now) hnd t ints' errs' :: l)
    (hacc : lastAccepted fd wt l = some (hnd', some (p, T), t₀)) (hT : 0 ≤ T) :
    hnd = hnd' ∧ t₀ ≤ t ∧
      (((ints' p).toInt = max 0 (t₀ + T - t) ∧ 0 ≤ (ints' p).toInt ∧ (ints' p).toInt ≤ T) ↔
        RemainingExact code (t₀ + T) now t) := by
  have htimely := (loopInv_of_steps h).log.2
  rw [hlog] at htimely
  obtain ⟨⟨timer, t₁, hla, hle, hp⟩, -⟩ := htimely.of_append
  obtain ⟨rfl, rfl, rfl⟩ : hnd = hnd' ∧ timer = some (p, T) ∧ t₁ = t₀ := by
    simpa using hla.symm.trans hacc
  obtain ⟨hlt, hint⟩ := hp p T rfl
  refine ⟨rfl, hle, ?_⟩
  rw [← signalled_toInt_iff (by omega), ← hint]
  constructor
  · rintro ⟨heq, -, -⟩
    exact heq
  · intro heq
    exact ⟨heq, by omega, by omega⟩

end

/-! ### A stopped event and a cancelled one -/

/-- The handler of a timed event that was accepted at `t₀` with the timeout `T`, called at `t`
after the log `l`, finds `found` in its variable. -/
def Obs.finds (o : Obs) (l : List Obs) (code : IoErrcode) (now t t₀ T found : ℤ) : Bool :=
  match o with
  | .invoked (.event fd wt code' now') _ t' ints _ =>
      decide (code' = code ∧ now' = now ∧ t' = t) &&
        (lastAccepted fd wt l).any fun (_, timer, t₀') =>
          decide (t₀' = t₀) && timer.any fun (p, T') =>
            decide (T' = T ∧ (ints p).toInt = found)
  | _ => false

/-- A search of the log that succeeds finds the call, and the entry that accepted it. -/
theorem Obs.exists_of_finds {log : List Obs} {code : IoErrcode} {now t t₀ T found : ℤ}
    (h : log.tails.any (fun | [] => false | o :: l => o.finds l code now t t₀ T found) = true) :
    ∃ l' l fd wt hnd hnd' ints errs p,
      log = l' ++ .invoked (.event fd wt code now) hnd t ints errs :: l ∧
        lastAccepted fd wt l = some (hnd', some (p, T), t₀) ∧ (ints p).toInt = found := by
  obtain ⟨tail, hmem, hfinds⟩ := List.any_eq_true.mp h
  obtain ⟨l', rfl⟩ := (List.mem_tails _ _).mp hmem
  cases tail with
  | nil => cases hfinds
  | cons o l =>
      cases o with
      | accepted what time | dequeued fd wt sound | cleaned fd sound => cases hfinds
      | invoked cause hnd t' ints errs =>
          cases cause with
          | post | delay ent code => cases hfinds
          | event fd wt code' now' =>
              obtain ⟨hcall, hlast⟩ := Bool.and_eq_true_iff.mp hfinds
              obtain ⟨rfl, rfl, rfl⟩ := of_decide_eq_true hcall
              obtain ⟨⟨hnd', timer, t₀'⟩, hla, hlast⟩ := (Option.any_eq_true _ _).mp hlast
              obtain ⟨ht₀, htimer⟩ := Bool.and_eq_true_iff.mp hlast
              obtain rfl := of_decide_eq_true ht₀
              obtain ⟨⟨p, T'⟩, rfl, hint⟩ := (Option.any_eq_true _ _).mp htimer
              obtain ⟨rfl, hfound⟩ := of_decide_eq_true hint
              exact ⟨l', l, fd, wt, hnd, hnd', ints, errs, p, rfl, hla, hfound⟩

/-- A read of fd 5 is accepted at time 5 with a timeout of 7. At time 8 `poll` fails, and the
read is stopped with a remaining time of 4. -/
theorem remainingTime_exact_iff_stopped :
    ∃ s : Svc RbMem, SoundSteps (fun _ _ => .ret) (newService 5 (fun _ => 7) fun _ => .ok) s ∧
      ∃ l' l fd wt hnd ints errs p,
        s.log = l' ++ .invoked (.event fd wt .stopped 8) hnd 8 ints errs :: l ∧
          lastAccepted fd wt l = some (hnd, some (p, 7), 5) ∧ (ints p).toInt = 5 + 7 - 8 := by
  let c : ApiCall := .schedTimeout ⟨5, some .read⟩ ⟨some 2, 0⟩ none 0
  let s₀ : Svc RbMem := newService 5 (fun _ => 7) fun _ => .ok
  have hobs : (apiCall (fun _ => none) s₀ c).any (fun r => decide (r.2.status = .ready) &&
      (iosvcPrepStop (fun _ _ => .ret)
        { r.2 with clock := r.2.clock + 3, status := .stopping }).any fun s =>
          s.log.tails.any fun | [] => false | o :: l => o.finds l .stopped 8 8 5 7 4) = true := by
    decide
  obtain ⟨⟨code, s₁⟩, hcall, hobs⟩ := (Option.any_eq_true _ _).mp hobs
  obtain ⟨hready, hobs⟩ := Bool.and_eq_true_iff.mp hobs
  obtain ⟨s, hstop, hfinds⟩ := (Option.any_eq_true _ _).mp hobs
  have hout : ¬ s₀.Live := by
    rintro (hst | hst)
    all_goals cases hst
  have hsteps : SoundSteps (fun _ _ => .ret) s₀ s := by
    refine .head ⟨_, .call c code hout hcall, by decide⟩ ?_
    refine .head ⟨_, .start (of_decide_eq_true hready), trivial⟩ ?_
    refine .head ⟨_, .user 3 s₁.ints s₁.errs, trivial⟩ ?_
    exact .head ⟨_, .pollFailed, trivial⟩ (.single ⟨_, .stop rfl hstop, trivial⟩)
  obtain ⟨l', l, fd, wt, hnd, hnd', ints, errs, p, hlog, hla, -⟩ := Obs.exists_of_finds hfinds
  obtain ⟨rfl, -, hexact⟩ := remainingTime_exact_iff hsteps hlog hla (by decide)
  obtain ⟨hint, -, -⟩ := hexact.mpr (remainingExact_self (by decide))
  exact ⟨s, hsteps, l', l, fd, wt, hnd, ints, errs, p, hlog, hla, hint⟩

/-- A read of fd 5 is accepted with a timeout of 7, and handler 1 is posted. -/
def cancellingScript : Script :=
  .call (.schedTimeout ⟨5, some .read⟩ ⟨some 2, 0⟩ none 0) .ret
    (.call (.post ⟨some 1, 0⟩) .ret .ret)

/-- Handler 1 cancels the read of fd 5 after a time of 1, and stops the service. -/
def cancellingBeh : Behaviour RbMem := fun hnd _ =>
  if hnd.callback = some 1 then .tick 1 (.call (.cancel 5 .read) .ret (.call .stop .ret .ret))
  else .ret

/-- **A cancelled event** finds its deadline in the place of its remaining time: it was accepted
at time 5 with a timeout of 7, is cancelled at time 6, and finds 12. -/
theorem remainingTime_cancelled :
    ∃ s s' : Svc RbMem, exec cancellingScript (newService 5 (fun _ => 7) fun _ => .ok) = some s ∧
      iosvcRun cancellingBeh 9 [] s = some (.stopped, s') ∧
      ∃ l' l fd wt hnd hnd' ints errs p,
        s'.log = l' ++ .invoked (.event fd wt .cancelled 0) hnd 6 ints errs :: l ∧
          lastAccepted fd wt l = some (hnd', some (p, 7), 5) ∧ (ints p).toInt = 12 ∧
          (ints p).toInt ≠ max 0 (5 + 7 - 6) ∧ ¬ (ints p).toInt ≤ 7 := by
  have hobs : (exec cancellingScript (newService 5 (fun _ => 7) fun _ => .ok)).any (fun s =>
      (iosvcRun cancellingBeh 9 [] s).any fun r => decide (r.1 = .stopped) &&
        r.2.log.tails.any fun | [] => false | o :: l => o.finds l .cancelled 0 6 5 7 12) = true := by
    decide
  obtain ⟨s, hs, hobs⟩ := (Option.any_eq_true _ _).mp hobs
  obtain ⟨⟨code, s'⟩, hrun, hobs⟩ := (Option.any_eq_true _ _).mp hobs
  obtain ⟨hcode, hfinds⟩ := Bool.and_eq_true_iff.mp hobs
  obtain rfl := of_decide_eq_true hcode
  obtain ⟨l', l, fd, wt, hnd, hnd', ints, errs, p, hlog, hla, hfound⟩ := Obs.exists_of_finds hfinds
  refine ⟨s, s', hs, hrun, l', l, fd, wt, hnd, hnd', ints, errs, p, hlog, hla, hfound, ?_, ?_⟩
  all_goals
    rw [hfound]
    decide

end IoEngine
