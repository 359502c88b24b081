import Mathlib

/-! A search for consecutive free cells of a table: a used cell in the window moves the
search behind that cell. -/
namespace Quest.Lib.RunSearch

variable {ε : Type}

def firstUsed (tst : Nat → Except ε Bool) (i : Nat) : Nat → Nat → Except ε (Option Nat)
  | 0, _ => .ok none
  | rounds + 1, j => do
    if ← tst (i + j) then
      firstUsed tst i rounds (j + 1)
    else
      .ok (some j)

def search (tst : Nat → Except ε Bool) (stuck : ε) (count bound : Nat) :
    Nat → Nat → Except ε (Option Nat)
  | 0, _ => .error stuck
  | fuel + 1, i =>
    if i < bound then do
      match ← firstUsed tst i count 0 with
      | some j => search tst stuck count bound fuel (i + j + 1)
      | none => .ok (some i)
    else
      .ok none

structure Tests (tst : Nat → Except ε Bool) (free : Nat → Prop) (size : Nat) (outside : ε) :
    Prop where
  unused : ∀ i < size, free i → tst i = .ok true
  used : ∀ i < size, ¬free i → tst i = .ok false
  behind : ∀ i, size ≤ i → tst i = .error outside

def Blocked (free : Nat → Prop) (size count i : Nat) : Prop :=
  ∃ u, i ≤ u ∧ u < i + count ∧ u < size ∧ ¬free u

variable {tst : Nat → Except ε Bool} {free : Nat → Prop} {size count bound fuel i : Nat}
  {outside stuck : ε}

theorem Tests.firstUsed (h : Tests tst free size outside) (i rounds j : Nat) :
    (∃ m, j ≤ m ∧ m < j + rounds ∧ i + m < size ∧ ¬free (i + m) ∧
        firstUsed tst i rounds j = .ok (some m)) ∨
      ((∀ m, j ≤ m → m < j + rounds → i + m < size ∧ free (i + m)) ∧
        firstUsed tst i rounds j = .ok none) ∨
      (size < i + j + rounds ∧ (∀ m, j ≤ m → i + m < size → free (i + m)) ∧
        firstUsed tst i rounds j = .error outside) := by
  induction rounds generalizing j with
  | zero => exact .inr (.inl ⟨fun m _ _ => by omega, rfl⟩)
  | succ rounds ih =>
    rw [RunSearch.firstUsed]
    by_cases hinside : i + j < size
    · by_cases hfree : free (i + j)
      · rw [h.unused _ hinside hfree]
        obtain ⟨m, hle, hlt, hin, hused, hret⟩ | ⟨hall, hret⟩ | ⟨hout, hall, hret⟩ := ih (j + 1)
        · exact .inl ⟨m, by omega, by omega, hin, hused, hret⟩
        · refine .inr (.inl ⟨fun m hle hlt => ?_, hret⟩)
          by_cases hfirst : m = j
          · exact hfirst ▸ ⟨hinside, hfree⟩
          · exact hall m (by omega) (by omega)
        · refine .inr (.inr ⟨by omega, fun m hle hin => ?_, hret⟩)
          by_cases hfirst : m = j
          · exact hfirst ▸ hfree
          · exact hall m (by omega) hin
      · rw [h.used _ hinside hfree]
        exact .inl ⟨j, Nat.le_refl _, by omega, hinside, hfree, rfl⟩
    · rw [h.behind _ (by omega)]
      exact .inr (.inr ⟨by omega, fun m _ _ => by omega, rfl⟩)

theorem Tests.search (h : Tests tst free size outside) (hpos : 0 < fuel)
    (hfuel : bound < i + fuel) (hbefore : ∀ i' < i, Blocked free size count i') :
    (∃ k < bound, (∀ j < count, k + j < size ∧ free (k + j)) ∧
        (∀ k' < k, Blocked free size count k') ∧
        search tst stuck count bound fuel i = .ok (some k)) ∨
      ((∀ k < bound, Blocked free size count k) ∧
        search tst stuck count bound fuel i = .ok none) ∨
      (∃ k < bound, size < k + count ∧ (∀ u, k ≤ u → u < size → free u) ∧
        search tst stuck count bound fuel i = .error outside) := by
  induction fuel generalizing i with
  | zero => omega
  | succ fuel ih =>
    rw [RunSearch.search]
    by_cases hi : i < bound
    · rw [if_pos hi]
      obtain ⟨m, _, hlt, hin, hused, hret⟩ | ⟨hall, hret⟩ | ⟨hout, hall, hret⟩ :=
        h.firstUsed i count 0
      · rw [hret]
        apply ih (by omega) (by omega)
        intro i' hi'
        by_cases hold : i' < i
        · exact hbefore i' hold
        · exact ⟨i + m, by omega, by omega, hin, hused⟩
      · rw [hret]
        exact .inl ⟨i, hi, fun j hj => hall j (Nat.zero_le j) (by omega), hbefore, rfl⟩
      · rw [hret]
        refine .inr (.inr ⟨i, hi, by omega, fun u hle hin => ?_, rfl⟩)
        have hfree := hall (u - i) (Nat.zero_le _) (by omega)
        rwa [Nat.add_sub_cancel' hle] at hfree
    · rw [if_neg hi]
      exact .inr (.inl ⟨fun k hk => hbefore k (by omega), rfl⟩)

end Quest.Lib.RunSearch
