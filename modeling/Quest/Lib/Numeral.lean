import Mathlib

/-! Numerals: the digits of a number, the most significant one first. -/
namespace Quest.Lib.Numeral

open List

def numeral (b n : Nat) : List Nat := if n = 0 then [0] else (b.digits n).reverse

variable {b n w k : Nat}

theorem numeral_of_lt (h : n < b) : numeral b n = [n] := by
  rw [numeral]
  split
  · rename_i hzero
    rw [hzero]
  · rename_i hpos
    rw [Nat.digits_of_lt b n hpos h, reverse_singleton]

theorem numeral_of_le (hb : 1 < b) (h : b ≤ n) : numeral b n = numeral b (n / b) ++ [n % b] := by
  have hquot : n / b ≠ 0 := (Nat.div_pos h (by omega)).ne'
  rw [numeral, if_neg (by omega), Nat.digits_def' hb (by omega), reverse_cons, numeral,
    if_neg hquot]

theorem numeral_ne_nil (hb : 1 < b) : numeral b n ≠ [] := by
  obtain hlt | hle := Nat.lt_or_ge n b
  · simp [numeral_of_lt hlt]
  · simp [numeral_of_le hb hle]

theorem numeral_digit_lt (hb : 1 < b) : ∀ d ∈ numeral b n, d < b := by
  intro d hd
  rw [numeral] at hd
  split at hd
  · rw [mem_singleton.mp hd]
    omega
  · exact Nat.digits_lt_base hb (mem_reverse.mp hd)

theorem length_numeral_le (hb : 1 < b) (hk : 0 < k) (h : n < b ^ k) : (numeral b n).length ≤ k := by
  rw [numeral]
  split
  · exact hk
  · rw [length_reverse]
    exact (Nat.digits_length_le_iff hb n).mpr h

theorem numeral_head (hn : n ≠ 0) : ∃ d ds, numeral b n = d :: ds ∧ d ≠ 0 := by
  have hdigits : b.digits n ≠ [] := Nat.digits_ne_nil_iff_ne_zero.mpr hn
  have hlast := Nat.getLast_digit_ne_zero b hn
  rw [numeral, if_neg hn]
  refine ⟨(b.digits n).getLast hdigits, (b.digits n).dropLast.reverse, ?_, hlast⟩
  rw [← reverse_concat, dropLast_append_getLast]

def text (b n : Nat) : List UInt8 := (numeral b n).map fun k => (Nat.digitChar k).toUInt8

def upperText (b n : Nat) : List UInt8 :=
  (numeral b n).map fun k => (Nat.digitChar k).toUpper.toUInt8

theorem zero_notMem_text (hb : 1 < b) (hb' : b ≤ 16) : 0 ∉ text b n := by
  intro h
  obtain ⟨k, hk, hzero⟩ := mem_map.mp h
  have hlt : k < 16 := lt_of_lt_of_le (numeral_digit_lt hb k hk) hb'
  revert hzero
  interval_cases k <;> decide

theorem length_text_le (hb : 1 < b) (hk : 0 < k) (h : n < b ^ k) : (text b n).length ≤ k := by
  rw [text, length_map]
  exact length_numeral_le hb hk h

theorem head_text (hb : 1 < b) (hb' : b ≤ 16) (hn : n ≠ 0) :
    (text b n).head? ≠ some '0'.toUInt8 := by
  obtain ⟨k, ks, hnum, hk⟩ := numeral_head (b := b) hn
  have hlt : k < 16 := lt_of_lt_of_le (numeral_digit_lt hb k (by rw [hnum]; simp)) hb'
  rw [text, hnum, map_cons, head?_cons]
  interval_cases k
  · exact absurd rfl hk
  all_goals decide

def fixed (b : Nat) : Nat → Nat → List Nat
  | 0, _ => []
  | w + 1, n => fixed b w (n / b) ++ [n % b]

theorem fixed_succ (w n : Nat) : fixed b (w + 1) n = n / b ^ w % b :: fixed b w n := by
  induction w generalizing n with
  | zero => simp [fixed]
  | succ w ih =>
    rw [fixed, ih, Nat.div_div_eq_div_mul, ← Nat.pow_succ', cons_append]
    rfl

theorem fixed_zero (w : Nat) : fixed b w 0 = replicate w 0 := by
  induction w with
  | zero => rfl
  | succ w ih => rw [fixed, Nat.zero_div, ih, Nat.zero_mod, replicate_succ']

theorem fixed_mod (w n : Nat) : fixed b w (n % b ^ w) = fixed b w n := by
  induction w generalizing n with
  | zero => rfl
  | succ w ih =>
    rw [fixed, fixed, Nat.pow_succ', Nat.mod_mul_right_div_self, ih, Nat.mod_mul_right_mod]

theorem fixed_eq (hb : 1 < b) (hw : 0 < w) (h : n < b ^ w) :
    fixed b w n = replicate (w - (numeral b n).length) 0 ++ numeral b n := by
  induction w generalizing n with
  | zero => omega
  | succ w ih =>
    rw [fixed]
    obtain hlt | hle := Nat.lt_or_ge n b
    · rw [Nat.div_eq_of_lt hlt, fixed_zero, Nat.mod_eq_of_lt hlt, numeral_of_lt hlt,
        length_singleton, Nat.add_sub_cancel]
    · have hpos : 0 < w := by
        by_contra hzero
        obtain rfl : w = 0 := by omega
        rw [zero_add, Nat.pow_one] at h
        omega
      have hquot : n / b < b ^ w := by
        rw [Nat.div_lt_iff_lt_mul (by omega), ← Nat.pow_succ]
        exact h
      rw [ih hpos hquot, numeral_of_le hb hle, length_append, length_singleton,
        Nat.add_sub_add_right, append_assoc]

end Quest.Lib.Numeral
