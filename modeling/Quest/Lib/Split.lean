import Mathlib

/-! A list and its parts between separators, as a loop finds them that runs to the next one. -/
namespace Quest.Lib.Split

variable {α : Type} [DecidableEq α] {sep : α} {xs ys : List α}

theorem not_mem_takeWhile (sep : α) (xs : List α) : sep ∉ xs.takeWhile (· ≠ sep) := fun hmem => by
  simpa using List.mem_takeWhile_imp hmem

theorem takeWhile_cases (sep : α) (xs : List α) :
    sep ∉ xs ∧ xs.takeWhile (· ≠ sep) = xs ∨
      ∃ behind, xs = xs.takeWhile (· ≠ sep) ++ sep :: behind := by
  have hsplit := List.takeWhile_append_dropWhile (p := (· ≠ sep)) (l := xs)
  cases hdrop : xs.dropWhile (· ≠ sep) with
  | nil =>
    rw [hdrop, List.append_nil] at hsplit
    have hnot := not_mem_takeWhile sep xs
    rw [hsplit] at hnot
    exact .inl ⟨hnot, hsplit⟩
  | cons x behind =>
    obtain rfl : x = sep := by
      have hhead := List.head?_dropWhile_not (· ≠ sep) xs
      rw [hdrop] at hhead
      simpa using hhead
    rw [hdrop] at hsplit
    exact .inr ⟨behind, hsplit.symm⟩

theorem splitOn_of_not_mem (h : sep ∉ xs) : xs.splitOn sep = [xs] := by
  apply List.splitOnP_eq_singleton
  intro x hx
  simpa using ne_of_mem_of_not_mem hx h

theorem splitOn_append (h : sep ∉ xs) (ys : List α) :
    (xs ++ sep :: ys).splitOn sep = xs :: ys.splitOn sep := by
  apply List.splitOnP_append_cons_of_forall_mem
  · intro x hx
    simpa using ne_of_mem_of_not_mem hx h
  · simp

end Quest.Lib.Split
