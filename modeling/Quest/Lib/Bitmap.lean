import Mathlib

/-! A bitmap in words of 32 bits. -/
namespace Quest.Lib.Bitmap

open Function

abbrev Table := Nat → BitVec 32

def mask (index : Nat) : BitVec 32 := 1#32 <<< (index &&& 31)

def set (table : Table) (index : Nat) : Table :=
  update table (index >>> 5) (table (index >>> 5) ||| mask index)

def clear (table : Table) (index : Nat) : Table :=
  update table (index >>> 5) (table (index >>> 5) &&& ~~~mask index)

def test (table : Table) (index : Nat) : Bool := table (index >>> 5) &&& mask index ≠ 0

variable {table : Table} {i j : Nat}

theorem word_eq (index : Nat) : index >>> 5 = index / 32 := Nat.shiftRight_eq_div_pow index 5

theorem bit_eq (index : Nat) : index &&& 31 = index % 32 :=
  Nat.and_two_pow_sub_one_eq_mod index 5

theorem mask_eq (index : Nat) : mask index = BitVec.twoPow 32 (index % 32) := by
  rw [mask, bit_eq, BitVec.twoPow_eq]

theorem test_eq (table : Table) (index : Nat) :
    test table index = (table (index / 32)).getLsbD (index % 32) := by
  rw [test, mask_eq, word_eq, BitVec.and_twoPow]
  have hlt : index % 32 < 32 := Nat.mod_lt _ (by decide)
  cases hbit : (table (index / 32)).getLsbD (index % 32) with
  | false => simp
  | true =>
    have hne : BitVec.twoPow 32 (index % 32) ≠ 0#32 := by
      intro hzero
      have := congrArg (BitVec.getLsbD · (index % 32)) hzero
      simp [hlt] at this
    simpa using hne

theorem getLsbD_mask (index bit : Nat) :
    (mask index).getLsbD bit = decide (index % 32 = bit) := by
  have hlt : index % 32 < 32 := Nat.mod_lt _ (by decide)
  rw [mask_eq, BitVec.getLsbD_twoPow]
  simp [hlt]

theorem test_set : test (set table i) j = (decide (i = j) || test table j) := by
  rw [test_eq, test_eq, set, word_eq]
  by_cases hword : j / 32 = i / 32
  · rw [hword, update_self, BitVec.getLsbD_or, getLsbD_mask, Bool.or_comm]
    congr 1
    apply decide_eq_decide.mpr
    omega
  · rw [update_of_ne hword]
    have hne : i ≠ j := by
      rintro rfl
      exact hword rfl
    simp [hne]

theorem test_clear : test (clear table i) j = (!decide (i = j) && test table j) := by
  rw [test_eq, test_eq, clear, word_eq]
  by_cases hword : j / 32 = i / 32
  · have hlt : j % 32 < 32 := Nat.mod_lt _ (by decide)
    rw [hword, update_self, BitVec.getLsbD_and, BitVec.getLsbD_not, getLsbD_mask,
      Bool.and_comm, decide_eq_true hlt, Bool.true_and]
    congr 2
    apply decide_eq_decide.mpr
    omega
  · rw [update_of_ne hword]
    have hne : i ≠ j := by
      rintro rfl
      exact hword rfl
    simp [hne]

def setRange (table : Table) (index : Nat) : Nat → Table
  | 0 => table
  | count + 1 => set (setRange table index count) (index + count)

def clearRange (table : Table) (index : Nat) : Nat → Table
  | 0 => table
  | count + 1 => clear (clearRange table index count) (index + count)

theorem test_setRange {count : Nat} :
    test (setRange table i count) j = true ↔ (i ≤ j ∧ j < i + count) ∨ test table j = true := by
  induction count with
  | zero =>
    constructor
    · exact .inr
    · rintro (⟨hle, hlt⟩ | h)
      · omega
      · exact h
  | succ count ih =>
    rw [setRange, test_set, Bool.or_eq_true, ih, decide_eq_true_eq]
    constructor
    · rintro (rfl | ⟨hle, hlt⟩ | h)
      · exact .inl ⟨by omega, by omega⟩
      · exact .inl ⟨hle, by omega⟩
      · exact .inr h
    · rintro (⟨hle, hlt⟩ | h)
      · by_cases hlast : i + count = j
        · exact .inl hlast
        · exact .inr (.inl ⟨hle, by omega⟩)
      · exact .inr (.inr h)

theorem test_clearRange {count : Nat} :
    test (clearRange table i count) j = true ↔ ¬(i ≤ j ∧ j < i + count) ∧ test table j = true := by
  induction count with
  | zero =>
    constructor
    · exact fun h => ⟨by omega, h⟩
    · exact fun h => h.2
  | succ count ih =>
    rw [clearRange, test_clear, Bool.and_eq_true, ih, Bool.not_eq_true', decide_eq_false_iff_not]
    constructor
    · rintro ⟨hlast, hout, h⟩
      exact ⟨by omega, h⟩
    · rintro ⟨hout, h⟩
      exact ⟨by omega, by omega, h⟩

end Quest.Lib.Bitmap
