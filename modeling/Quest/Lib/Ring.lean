import Mathlib

/-! A queue in the slots of a ring: the slots in use follow each other from `head`
on, and the last slot is followed by the first. -/
namespace Quest.Lib.Ring

def slot (capacity head i : Nat) : Nat :=
  if head + i < capacity then head + i else head + i - capacity

def advance (capacity i : Nat) : Nat := if capacity ≤ i + 1 then 0 else i + 1

variable {α : Type} {capacity head i j : Nat}

theorem slot_lt (hhead : head < capacity) (hi : i ≤ capacity) : slot capacity head i < capacity := by
  unfold slot
  split <;> omega

theorem slot_injective (hi : i < capacity) (hj : j < capacity)
    (h : slot capacity head i = slot capacity head j) : i = j := by
  unfold slot at h
  split at h <;> split at h <;> omega

theorem slot_zero (hhead : head < capacity) : slot capacity head 0 = head := if_pos hhead

theorem advance_lt (hcap : 0 < capacity) : advance capacity i < capacity := by
  unfold advance
  split <;> omega

theorem advance_slot (hhead : head < capacity) (hi : i < capacity) :
    advance capacity (slot capacity head i) = slot capacity head (i + 1) := by
  unfold advance slot
  split <;> split <;> split <;> omega

theorem slot_advance (hhead : head < capacity) (hi : i < capacity) :
    slot capacity (advance capacity head) i = slot capacity head (i + 1) := by
  unfold advance slot
  split <;> split <;> split <;> omega

structure Holds (capacity : Nat) (cells : Nat → α) (head : Nat) (xs : List α) : Prop where
  head_lt : head < capacity
  fits : xs.length ≤ capacity
  cell : ∀ i (hi : i < xs.length), cells (slot capacity head i) = xs[i]

variable {cells cells' : Nat → α} {xs : List α}

theorem Holds.empty (hcap : 0 < capacity) (cells : Nat → α) : Holds capacity cells 0 [] :=
  ⟨hcap, Nat.zero_le _, fun i hi => absurd hi (Nat.not_lt_zero i)⟩

section

variable (h : Holds capacity cells head xs)
include h

theorem Holds.congr_used
    (hcells : ∀ i < xs.length, cells' (slot capacity head i) = cells (slot capacity head i)) :
    Holds capacity cells' head xs := by
  refine ⟨h.head_lt, h.fits, ?_⟩
  intro i hi
  rw [hcells i hi, h.cell i hi]

theorem Holds.congr
    (hcells : ∀ i < capacity, cells' i = cells i) : Holds capacity cells' head xs :=
  h.congr_used fun _ hi => hcells _ (slot_lt h.head_lt (Nat.le_trans (Nat.le_of_lt hi) h.fits))

theorem Holds.congr_behind (hroom : xs.length < capacity)
    (hcells : ∀ i, i ≠ slot capacity head xs.length → cells' i = cells i) :
    Holds capacity cells' head xs := by
  apply h.congr_used
  intro i hi
  apply hcells
  intro heq
  have := slot_injective (by omega) hroom heq
  omega

theorem Holds.push (hroom : xs.length < capacity) {x : α}
    (hnew : cells' (slot capacity head xs.length) = x)
    (hcells : ∀ i < capacity, i ≠ slot capacity head xs.length → cells' i = cells i) :
    Holds capacity cells' head (xs ++ [x]) := by
  refine ⟨h.head_lt, ?_, ?_⟩
  · rw [List.length_append, List.length_singleton]
    exact hroom
  · intro i hi
    by_cases hold : i < xs.length
    · have hne : slot capacity head i ≠ slot capacity head xs.length := by
        intro heq
        have := slot_injective (by omega) hroom heq
        omega
      rw [hcells _ (slot_lt h.head_lt (by omega)) hne, h.cell i hold, List.getElem_append_left hold]
    · have hlast : i = xs.length := by
        rw [List.length_append, List.length_singleton] at hi
        omega
      subst hlast
      rw [hnew, List.getElem_concat_length rfl]

end

theorem Holds.first {x : α} (h : Holds capacity cells head (x :: xs)) : cells head = x := by
  have hcell := h.cell 0 (Nat.zero_lt_succ _)
  rwa [slot_zero h.head_lt] at hcell

theorem Holds.pop {x : α} (h : Holds capacity cells head (x :: xs)) :
    Holds capacity cells (advance capacity head) xs := by
  have hfits := h.fits
  rw [List.length_cons] at hfits
  refine ⟨advance_lt (Nat.zero_lt_of_lt h.head_lt), by omega, ?_⟩
  intro i hi
  rw [slot_advance h.head_lt (by omega), h.cell (i + 1) (Nat.succ_lt_succ hi),
    List.getElem_cons_succ]

end Quest.Lib.Ring
