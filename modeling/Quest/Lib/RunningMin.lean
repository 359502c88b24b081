import Mathlib

/-! A running minimum that starts from "nothing yet", for which the bottom element stands.  An
element that is itself the bottom makes it forget what came before. -/
namespace Quest.Lib.RunningMin

open List

variable {α : Type*} [LinearOrder α] [OrderBot α]

def runningMin (least x : α) : α := if least = ⊥ ∨ x < least then x else least

def tail (xs : List α) : List α := xs.rtakeWhile fun x => ⊥ < x

theorem tail_concat_bot (xs : List α) : tail (xs ++ [⊥]) = [] :=
  rtakeWhile_concat_neg _ _ _ (by simp)

theorem tail_concat (xs : List α) {x : α} (hx : ⊥ < x) : tail (xs ++ [x]) = tail xs ++ [x] :=
  rtakeWhile_concat_pos _ _ _ (by simpa using hx)

theorem mem_of_mem_tail {xs : List α} {x : α} (h : x ∈ tail xs) : x ∈ xs ∧ ⊥ < x :=
  ⟨(rtakeWhile_suffix _ xs).subset h, by simpa using mem_rtakeWhile_imp h⟩

theorem runningMin_bot (least : α) : runningMin least ⊥ = ⊥ := by
  unfold runningMin
  split
  · rfl
  · rename_i h
    exact not_bot_lt_iff.mp fun hlt => h (.inr hlt)

theorem foldl_runningMin (first : α) (xs : List α) :
    (tail (first :: xs) = [] ∧ xs.foldl runningMin first = ⊥) ∨
      IsLeast {x | x ∈ tail (first :: xs)} (xs.foldl runningMin first) := by
  induction xs using reverseRecOn with
  | nil =>
    by_cases hfirst : first = ⊥
    · exact .inl ⟨hfirst ▸ tail_concat_bot [], hfirst⟩
    · have htail : tail [first] = [first] := tail_concat [] (bot_lt_iff_ne_bot.mpr hfirst)
      rw [htail, foldl_nil]
      exact .inr ⟨by simp, fun x hx => (mem_singleton.mp hx).ge⟩
  | append_singleton xs x ih =>
    rw [foldl_append, foldl_cons, foldl_nil, ← cons_append]
    by_cases hx : x = ⊥
    · rw [hx]
      exact .inl ⟨tail_concat_bot _, runningMin_bot _⟩
    · rw [tail_concat _ (bot_lt_iff_ne_bot.mpr hx)]
      refine .inr ?_
      rcases ih with ⟨hnil, hbot⟩ | ⟨hmem, hleast⟩
      · rw [hnil, hbot, runningMin, if_pos (.inl rfl)]
        exact ⟨by simp, fun y hy => (mem_singleton.mp hy).ge⟩
      · have hne : xs.foldl runningMin first ≠ ⊥ := (mem_of_mem_tail hmem).2.ne'
        unfold runningMin
        by_cases hless : x < xs.foldl runningMin first
        · rw [if_pos (.inr hless)]
          refine ⟨by simp, fun y hy => ?_⟩
          rcases mem_append.mp hy with hy | hy
          · exact hless.le.trans (hleast hy)
          · exact (mem_singleton.mp hy).ge
        · rw [if_neg (fun h => h.elim hne hless)]
          refine ⟨mem_append_left _ hmem, fun y hy => ?_⟩
          rcases mem_append.mp hy with hy | hy
          · exact hleast hy
          · exact (mem_singleton.mp hy) ▸ not_lt.mp hless

/-- The result is a lower bound of all elements but the bottom exactly if the least of them is
behind the last bottom. -/
theorem foldl_runningMin_bounds_iff (first : α) (xs : List α) :
    (∀ x ∈ first :: xs, ⊥ < x → ⊥ < xs.foldl runningMin first ∧ xs.foldl runningMin first ≤ x) ↔
      ((∃ x ∈ first :: xs, ⊥ < x) →
        ∃ x ∈ tail (first :: xs), ∀ y ∈ first :: xs, ⊥ < y → x ≤ y) := by
  rcases foldl_runningMin first xs with ⟨hnil, hbot⟩ | ⟨hmem, hleast⟩
  · rw [hbot, hnil]
    constructor
    · rintro h ⟨x, hx, hpos⟩
      exact absurd (h x hx hpos).1 (lt_irrefl ⊥)
    · intro h x hx hpos
      obtain ⟨y, hy, -⟩ := h ⟨x, hx, hpos⟩
      exact absurd hy not_mem_nil
  · have hfold := (mem_of_mem_tail hmem).2
    constructor
    · exact fun h _ => ⟨_, hmem, fun y hy hpos => (h y hy hpos).2⟩
    · intro h x hx hpos
      obtain ⟨y, hy, hbound⟩ := h ⟨x, hx, hpos⟩
      exact ⟨hfold, (hleast hy).trans (hbound x hx hpos)⟩

theorem mem_tail {first : α} {xs : List α} (hxs : ∀ x ∈ xs, ⊥ < x) {y : α}
    (hy : y ∈ first :: xs) (hpos : ⊥ < y) : y ∈ tail (first :: xs) := by
  induction xs using reverseRecOn with
  | nil =>
    rw [mem_singleton.mp hy] at hpos ⊢
    have htail : tail [first] = [first] := tail_concat [] hpos
    rw [htail]
    exact mem_singleton_self first
  | append_singleton xs x ih =>
    rw [← cons_append] at hy ⊢
    rw [tail_concat _ (hxs x (by simp))]
    rcases mem_append.mp hy with hy | hy
    · exact mem_append_left _ (ih (fun z hz => hxs z (mem_append_left _ hz)) hy)
    · exact mem_append_right _ hy

theorem exists_least_of_pos {first : α} {xs : List α} (hxs : ∀ x ∈ xs, ⊥ < x)
    (hsome : ∃ x ∈ first :: xs, ⊥ < x) :
    ∃ x ∈ tail (first :: xs), ∀ y ∈ first :: xs, ⊥ < y → x ≤ y := by
  obtain ⟨x, hx, hpos⟩ := hsome
  have hmem := mem_tail hxs hx hpos
  rcases foldl_runningMin first xs with ⟨hnil, -⟩ | ⟨hfold, hleast⟩
  · rw [hnil] at hmem
    exact absurd hmem not_mem_nil
  · exact ⟨_, hfold, fun y hy hpos => hleast (mem_tail hxs hy hpos)⟩

end Quest.Lib.RunningMin
