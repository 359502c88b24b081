import Quest.Basic
import Quest.Lib.Reach

/-! The spinlocks of `smp/spinlock.h`.  Until a timer interrupt sets `mp_enabled` the other
processors wait, and `spinlock_lock` does nothing. -/
namespace Quest.Smp.Spinlock

open Lib.Reach

structure State (n : Nat) where
  lock : Nat
  mpEnabled : Bool
  inside : Finset (Fin n)

/-- `lock` is one round of the loop of `spinlock_lock`.  Once set, `mp_enabled` stays set. -/
inductive Event (n : Nat) where
  | lock (p : Fin n)
  | unlock (p : Fin n)
  | timer

variable {n : Nat} {boot other : Fin n} {s s' : State n} {e : Event n}

def State.initial (n : Nat) : State n := ⟨0, false, ∅⟩

def step (s : State n) : Event n → Except Fault (State n)
  | .lock p =>
      if s.mpEnabled then
        .ok { s with lock := 1, inside := if s.lock = 0 then insert p s.inside else s.inside }
      else .ok { s with inside := insert p s.inside }
  | .unlock p => .ok { s with lock := 0, inside := s.inside.erase p }
  | .timer => .ok { s with mpEnabled := true }

/-- Who is inside unlocks, and `mp_enabled` is not set while the bootstrap processor is. -/
def Paired (boot : Fin n) (s : State n) : Event n → Prop
  | .lock p => p ∉ s.inside ∧ (s.mpEnabled = false → p = boot)
  | .unlock p => p ∈ s.inside
  | .timer => s.mpEnabled = true ∨ s.inside = ∅

structure Exclusive (boot : Fin n) (s : State n) : Prop where
  one : s.inside.card ≤ 1
  lock : s.mpEnabled = true → (s.lock = 0 ↔ s.inside = ∅)
  alone : s.mpEnabled = false → s.lock = 0 ∧ s.inside ⊆ {boot}

theorem exclusive_step (h : Exclusive boot s) (he : Paired boot s e) (hstep : step s e = .ok s') :
    Exclusive boot s' := by
  obtain ⟨hone, hlock, halone⟩ := h
  cases e with
  | lock p =>
    rw [step] at hstep
    split at hstep
    · rename_i hmp
      cases hstep
      by_cases hzero : s.lock = 0
      · have hempty := (hlock hmp).mp hzero
        constructor <;> simp [hzero, hempty, hmp]
      · have hinside := mt (hlock hmp).mpr hzero
        constructor <;> simp [hzero, hinside, hmp, hone]
    · rename_i hmp
      cases hstep
      have hmp := Bool.eq_false_iff.mpr hmp
      obtain ⟨hzero, hsub⟩ := halone hmp
      have hinsert := Finset.insert_subset (Finset.mem_singleton.mpr (he.2 hmp)) hsub
      exact ⟨Finset.card_le_card hinsert, by simp [hmp], fun _ => ⟨hzero, hinsert⟩⟩
  | unlock p =>
    cases hstep
    have hempty : s.inside.erase p = ∅ := by
      rw [← Finset.card_eq_zero, Finset.card_erase_of_mem he]
      omega
    constructor <;> simp [hempty]
  | timer =>
    cases hstep
    refine ⟨hone, fun _ => ?_, by simp⟩
    cases hmp : s.mpEnabled with
    | true => exact hlock hmp
    | false => simp [halone hmp, he.resolve_left (by simp [hmp])]

theorem exclusive_run (hs : Exclusive boot s) (h : Reaches step (Paired boot) s s') :
    Exclusive boot s' :=
  h.invariant (Exclusive boot) hs fun _ _ _ => exclusive_step

/-- At most one processor is inside, and the lock is 0 when there is none.  When `mp_enabled` is
set this remains so if and only if it was set before or there is none. -/
theorem spinlock_exclusive_iff (hne : other ≠ boot)
    (h : Reaches step (Paired boot) (State.initial n) s) :
    Exclusive boot s ∧
      ((∀ s', Reaches step (Paired boot) { s with mpEnabled := true } s' → s'.inside.card ≤ 1) ↔
        Paired boot s .timer) := by
  have hs : Exclusive boot s := by
    apply exclusive_run _ h
    constructor <;> simp [State.initial]
  refine ⟨hs, fun hall => ?_, fun htimer s' hs' => ?_⟩
  · by_contra htimer
    obtain ⟨hmp, hinside⟩ := not_or.mp htimer
    obtain ⟨hzero, hsub⟩ := hs.alone (Bool.eq_false_iff.mpr hmp)
    have hother : other ∉ s.inside := fun hmem => hne (Finset.mem_singleton.mp (hsub hmem))
    have htwo := hall _ (Reaches.refl.tail (e := .lock other) ⟨hother, by simp⟩ rfl)
    rw [if_pos hzero, Finset.card_insert_of_notMem hother] at htwo
    exact hinside (Finset.card_eq_zero.mp (by omega))
  · exact (exclusive_run (exclusive_step hs htimer rfl) hs').one

theorem spinlock_shared : ∃ s : State 2, Reaches step (Paired 0) (State.initial 2) s ∧
    ¬∀ s', Reaches step (Paired 0) { s with mpEnabled := true } s' → s'.inside.card ≤ 1 := by
  have h : Reaches step (Paired 0) (State.initial 2) ⟨0, false, {0}⟩ :=
    Reaches.refl.tail (e := .lock 0) (by simp [Paired, State.initial]) rfl
  have hne : (1 : Fin 2) ≠ 0 := by decide
  exact ⟨_, h, mt (spinlock_exclusive_iff hne h).2.mp (by simp [Paired])⟩

end Quest.Smp.Spinlock
