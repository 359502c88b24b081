import Mathlib

/-! Periodic supply.  An amount `b` that becomes available at time `t`, and again every `T` after it
has been used, can be used at the rate of time only: its unit `i` is available from `t + i` on. -/
namespace Quest.Lib.Supply

open Finset

def supply (T x t b : Nat) : Nat := ∑ k ∈ range (x + 1), min b (x - (t + k * T))

variable {T x t b : Nat}

@[simp] theorem supply_zero : supply T x t 0 = 0 := by simp [supply]

theorem supply_add (t a b : Nat) :
    supply T x t (a + b) = supply T x t a + supply T x (t + a) b := by
  unfold supply
  rw [← sum_add_distrib]
  apply sum_congr rfl
  intro k _
  omega

theorem supply_le_of_le {t t' : Nat} (b : Nat) (h : t ≤ t') :
    supply T x t' b ≤ supply T x t b := by
  unfold supply
  apply sum_le_sum
  intro k _
  omega

theorem supply_next (hT : 0 < T) (t b : Nat) :
    supply T x t b = min b (x - t) + supply T x (t + T) b := by
  have hlast : x - (t + (x + 1) * T) = 0 := by
    have : x + 1 ≤ (x + 1) * T := Nat.le_mul_of_pos_right _ hT
    omega
  have hsucc : ∑ k ∈ range (x + 1 + 1), min b (x - (t + k * T)) = supply T x t b := by
    rw [sum_range_succ, hlast, Nat.min_zero, add_zero]
    rfl
  rw [← hsucc, sum_range_succ', zero_mul, add_zero, add_comm]
  congr 1
  unfold supply
  apply sum_congr rfl
  intro k _
  congr 2
  ring

theorem supply_le (hT : 0 < T) (t b : Nat) : supply T x t b ≤ b * (1 + (x - t) / T) := by
  unfold supply
  have hterm : ∀ k ∈ range (x + 1), min b (x - (t + k * T)) ≤
      if k ∈ range (1 + (x - t) / T) then b else 0 := by
    intro k _
    split
    · exact Nat.min_le_left _ _
    · rename_i hk
      rw [mem_range, not_lt] at hk
      have hlate : x - t < k * T := by
        rw [← Nat.div_lt_iff_lt_mul hT]
        omega
      omega
  calc
    ∑ k ∈ range (x + 1), min b (x - (t + k * T)) ≤
        ∑ k ∈ range (x + 1), if k ∈ range (1 + (x - t) / T) then b else 0 := sum_le_sum hterm
    _ = #{k ∈ range (x + 1) | k ∈ range (1 + (x - t) / T)} * b := by
      rw [← sum_filter, sum_const, smul_eq_mul]
    _ ≤ #(range (1 + (x - t) / T)) * b := by
      apply Nat.mul_le_mul_right
      apply card_le_card
      intro k hk
      exact (mem_filter.mp hk).2
    _ = b * (1 + (x - t) / T) := by rw [card_range, mul_comm]

end Quest.Lib.Supply
