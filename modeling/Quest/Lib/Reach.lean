import Mathlib

/-! Runs of a partial step function.  A guard says which events may happen in which state. -/
namespace Quest.Lib.Reach

variable {σ ε φ : Type}

/-- The states reached from `start` by guarded events whose step does not fail. -/
inductive Reaches (step : σ → ε → Except φ σ) (guard : σ → ε → Prop) (start : σ) : σ → Prop where
  | refl : Reaches step guard start start
  | tail {s s' : σ} {e : ε} : Reaches step guard start s → guard s e → step s e = .ok s' →
      Reaches step guard start s'

variable {step : σ → ε → Except φ σ} {guard : σ → ε → Prop} {start s : σ}

theorem Reaches.invariant (inv : σ → Prop) (h : Reaches step guard start s) (hstart : inv start)
    (hstep : ∀ s s' e, inv s → guard s e → step s e = .ok s' → inv s') : inv s := by
  induction h with
  | refl => exact hstart
  | tail _ hguard hok ih => exact hstep _ _ _ ih hguard hok

def replay (step : σ → ε → Except φ σ) (guard : σ → ε → Prop) [∀ s e, Decidable (guard s e)] :
    σ → List ε → Option σ
  | s, [] => some s
  | s, e :: events =>
      if guard s e then
        match step s e with
        | .error _ => none
        | .ok s' => replay step guard s' events
      else none

theorem Reaches.replay [∀ s e, Decidable (guard s e)] {s' : σ} {events : List ε}
    (h : Reaches step guard start s) (hrun : replay step guard s events = some s') :
    Reaches step guard start s' := by
  induction events generalizing s with
  | nil =>
    rw [Reach.replay, Option.some.injEq] at hrun
    exact hrun ▸ h
  | cons e events ih =>
    rw [Reach.replay] at hrun
    split at hrun
    · rename_i hguard
      split at hrun
      · cases hrun
      · rename_i next hok
        exact ih (h.tail hguard hok) hrun
    · cases hrun

/-- Every run of guarded events from `s` that goes on as long as it can comes to a state
with `goal`. -/
inductive Inevitable (step : σ → ε → Except φ σ) (guard : σ → ε → Prop) (goal : σ → Prop) :
    σ → Prop where
  | now {s : σ} : goal s → Inevitable step guard goal s
  | later {s : σ} : (∃ e s', guard s e ∧ step s e = .ok s') →
      (∀ e s', guard s e → step s e = .ok s' → Inevitable step guard goal s') →
      Inevitable step guard goal s

theorem Inevitable.of_measure {goal : σ → Prop} (inv : σ → Prop) (measure : σ → Nat)
    (hinv : ∀ s s' e, inv s → guard s e → step s e = .ok s' → inv s')
    (hprog : ∀ s, inv s → ¬goal s → ∃ e s', guard s e ∧ step s e = .ok s')
    (hless : ∀ s s' e, inv s → guard s e → step s e = .ok s' → measure s' < measure s)
    (hs : inv s) : Inevitable step guard goal s := by
  induction hn : measure s using Nat.strongRecOn generalizing s with
  | _ n ih =>
    by_cases hgoal : goal s
    · exact .now hgoal
    · refine .later (hprog s hs hgoal) fun e s' hguard hok => ?_
      have hlt := hless s s' e hs hguard hok
      exact ih (measure s') (hn ▸ hlt) (hinv s s' e hs hguard hok) rfl

section Loop

variable {α : Type} {body : σ → α → Except φ σ} {xs : List α}

theorem foldlM_returns (inv : σ → Prop) (hs : inv s)
    (hbody : ∀ s x, x ∈ xs → inv s → ∃ s', body s x = .ok s' ∧ inv s') :
    ∃ s', xs.foldlM body s = .ok s' ∧ inv s' := by
  induction xs generalizing s with
  | nil => exact ⟨s, rfl, hs⟩
  | cons x xs ih =>
    obtain ⟨s1, hx, hs1⟩ := hbody s x List.mem_cons_self hs
    obtain ⟨s2, hxs, hs2⟩ := ih hs1 fun s y hy => hbody s y (List.mem_cons_of_mem x hy)
    refine ⟨s2, ?_, hs2⟩
    rw [List.foldlM_cons, hx]
    exact hxs

end Loop

end Quest.Lib.Reach
