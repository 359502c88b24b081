import Mathlib

/-! A loop whose rounds make progress or leave everything as it is. -/
namespace Quest.Lib.Loop

variable {σ φ : Type}

/-- The loop with this body, for at most `n` rounds.  A round fails, ends the loop or goes on. -/
def loop (body : σ → Except φ (Option σ)) : Nat → σ → Option (Except φ σ)
  | 0, _ => none
  | n + 1, s =>
      match body s with
      | .error e => some (.error e)
      | .ok none => some (.ok s)
      | .ok (some s') => loop body n s'

inductive Visits (body : σ → Except φ (Option σ)) : σ → σ → Prop where
  | here {s : σ} : Visits body s s
  | next {s s' t : σ} : body s = .ok (some s') → Visits body s' t → Visits body s t

/-- The loop ends, and not with a fault of the kind `bad`. -/
def Safe (bad : φ → Prop) (body : σ → Except φ (Option σ)) (s : σ) : Prop :=
  ∃ n r, loop body n s = some r ∧ ∀ e, r = .error e → ¬bad e

variable {body : σ → Except φ (Option σ)} {s : σ} {bad : φ → Prop}

theorem loop_stuck (h : body s = .ok (some s)) (n : Nat) : loop body n s = none := by
  induction n with
  | zero => rfl
  | succ n ih =>
    rw [loop, h]
    exact ih

theorem safe_iff (inv : σ → Prop) {r : σ → σ → Prop} (hwf : WellFounded r)
    (hstep : ∀ s s', inv s → body s = .ok (some s') → inv s' ∧ (s' = s ∨ r s' s)) (hs : inv s) :
    Safe bad body s ↔
      ∀ t, Visits body s t → body t ≠ .ok (some t) ∧ ∀ e, body t = .error e → ¬bad e := by
  constructor
  · clear hs
    rintro ⟨n, result, hrun, hgood⟩
    induction n generalizing s with
    | zero => cases hrun
    | succ n ih =>
      have hmoves : body s ≠ .ok (some s) := by
        intro hstuck
        rw [loop_stuck hstuck] at hrun
        cases hrun
      rw [loop] at hrun
      intro t hvisit
      cases hvisit with
      | here =>
        refine ⟨hmoves, fun e he => ?_⟩
        rw [he] at hrun
        exact hgood e (Option.some.inj hrun).symm
      | next hnext hvisit =>
        rw [hnext] at hrun
        exact ih hrun t hvisit
  · induction s using hwf.induction with
    | _ s ih =>
      intro h
      obtain ⟨hmoves, hgood⟩ := h s .here
      cases hbody : body s with
      | error e =>
        refine ⟨1, .error e, by rw [loop, hbody], ?_⟩
        rintro _ ⟨⟩
        exact hgood e hbody
      | ok next =>
        cases next with
        | none => exact ⟨1, .ok s, by rw [loop, hbody], nofun⟩
        | some s' =>
          obtain ⟨hs', heq | hless⟩ := hstep s s' hs hbody
          · exact absurd (heq ▸ hbody) hmoves
          obtain ⟨n, result, hrun, hfine⟩ := ih s' hless hs' fun t ht => h t (.next hbody ht)
          exact ⟨n + 1, result, by rw [loop, hbody]; exact hrun, hfine⟩

end Quest.Lib.Loop
