import Mathlib

/-! Files that are read front to back, by a reader that keeps its position. -/
namespace Quest.Lib.Cursor

open List

variable {σ φ α : Type}

inductive Reads (read : σ → Nat → Except φ (Option (List α) × σ)) :
    σ → List Nat → List (List α) → σ → Prop where
  | nil {s : σ} : Reads read s [] [] s
  | cons {s s' s'' : σ} {len : Nat} {lens : List Nat} {out : List α} {outs : List (List α)} :
      read s len = .ok (some out, s') → Reads read s' lens outs s'' →
      Reads read s (len :: lens) (out :: outs) s''

/-- The reads return consecutive elements of the file, from its start on and never more than
`limit`; a read that starts at the limit returns nothing. -/
def InFile (read : σ → Nat → Except φ (Option (List α) × σ)) (s : σ) (file : List α) (limit : Nat)
    (lens : List Nat) : Prop :=
  ∃ outs s', Reads read s lens outs s' ∧ outs.flatten <+: file ∧ outs.flatten.length ≤ limit ∧
    ∀ before out after, outs = before ++ out :: after → before.flatten.length = limit → out = []

theorem eq_nil_of_at_limit {outs before after : List (List α)} {out : List α} {limit : Nat}
    (h : outs.flatten.length ≤ limit) (houts : outs = before ++ out :: after)
    (hend : before.flatten.length = limit) : out = [] := by
  rw [houts, flatten_append, flatten_cons, length_append, length_append,
    hend] at h
  apply eq_nil_of_length_eq_zero
  omega

/-- What a read at `pos` returns of the elements that there are: behind the end it is cut off, or
it fails as a whole. -/
def got (view : List α) (short : Bool) (pos len : Nat) : List α :=
  if short = true ∨ pos + len ≤ view.length then (view.drop pos).take len else []

def delivered (view : List α) (short : Bool) : Nat → List Nat → List α
  | _, [] => []
  | pos, len :: lens =>
      got view short pos len ++ delivered view short (min (pos + len) view.length) lens

def FineAll (fine : Nat → Nat → Prop) (size : Nat) : Nat → List Nat → Prop
  | _, [] => True
  | pos, len :: lens => fine pos len ∧ FineAll fine size (min (pos + len) size) lens

instance (fine : Nat → Nat → Prop) [∀ pos len, Decidable (fine pos len)] (size : Nat) :
    ∀ pos lens, Decidable (FineAll fine size pos lens)
  | _, [] => isTrue trivial
  | pos, len :: lens =>
      have := instDecidableFineAll fine size (min (pos + len) size) lens
      inferInstanceAs (Decidable (_ ∧ _))

theorem fineAll_of_forall {fine : Nat → Nat → Prop} (h : ∀ pos len, fine pos len) (size pos : Nat)
    (lens : List Nat) : FineAll fine size pos lens := by
  induction lens generalizing pos with
  | nil => trivial
  | cons len lens ih => exact ⟨h pos len, ih _⟩

structure Follows (read : σ → Nat → Except φ (Option (List α) × σ)) (view : List α) (short : Bool)
    (fine : Nat → Nat → Prop) (At : σ → Nat → Prop) : Prop where
  returns : ∀ {s pos len}, At s pos → pos ≤ view.length → 0 < len → fine pos len →
    ∃ s', read s len = .ok (some (got view short pos len), s') ∧
      At s' (min (pos + len) view.length)
  fails : ∀ {s pos len}, At s pos → pos ≤ view.length → 0 < len → ¬fine pos len →
    ∃ fault, read s len = .error fault

variable {read : σ → Nat → Except φ (Option (List α) × σ)} {view file : List α} {short : Bool}
  {fine : Nat → Nat → Prop} {At : σ → Nat → Prop} {s s' : σ} {pos limit : Nat} {lens : List Nat}

section

variable (h : Follows read view short fine At)
include h

theorem Follows.reads (hs : At s pos)
    (hpos : pos ≤ view.length) (hlens : ∀ len ∈ lens, 0 < len)
    (hfine : FineAll fine view.length pos lens) :
    ∃ outs s', Reads read s lens outs s' ∧ outs.flatten = delivered view short pos lens := by
  induction lens generalizing s pos with
  | nil => exact ⟨[], s, .nil, rfl⟩
  | cons len lens ih =>
    rw [forall_mem_cons] at hlens
    obtain ⟨s', hok, hs'⟩ := h.returns hs hpos hlens.1 hfine.1
    obtain ⟨outs, s'', hreads, houts⟩ := ih hs' (Nat.min_le_right _ _) hlens.2 hfine.2
    refine ⟨_ :: outs, s'', .cons hok hreads, ?_⟩
    rw [flatten_cons, houts, delivered]

theorem Follows.of_reads {outs : List (List α)}
    (hs : At s pos) (hpos : pos ≤ view.length) (hlens : ∀ len ∈ lens, 0 < len)
    (hreads : Reads read s lens outs s') :
    FineAll fine view.length pos lens ∧ outs.flatten = delivered view short pos lens := by
  induction hreads generalizing pos with
  | nil => exact ⟨trivial, rfl⟩
  | cons hok _ ih =>
    rw [forall_mem_cons] at hlens
    rename_i s s' s'' len lens out outs _
    by_cases hfine : fine pos len
    · obtain ⟨next, hret, hnext⟩ := h.returns hs hpos hlens.1 hfine
      rw [hok, Except.ok.injEq, Prod.mk.injEq, Option.some.injEq] at hret
      obtain ⟨rfl, rfl⟩ := hret
      obtain ⟨hall, houts⟩ := ih hnext (Nat.min_le_right _ _) hlens.2
      refine ⟨⟨hfine, hall⟩, ?_⟩
      rw [flatten_cons, houts, delivered]
    · obtain ⟨fault, hfault⟩ := h.fails hs hpos hlens.1 hfine
      rw [hok] at hfault
      cases hfault

theorem Follows.inFile_iff (hs : At s 0)
    (hlens : ∀ len ∈ lens, 0 < len) :
    InFile read s file limit lens ↔ FineAll fine view.length 0 lens ∧
      delivered view short 0 lens <+: file ∧ (delivered view short 0 lens).length ≤ limit := by
  constructor
  · rintro ⟨outs, s', hreads, hfront, hlimit, -⟩
    obtain ⟨hfine, houts⟩ := h.of_reads hs (Nat.zero_le _) hlens hreads
    rw [houts] at hfront hlimit
    exact ⟨hfine, hfront, hlimit⟩
  · rintro ⟨hfine, hfront, hlimit⟩
    obtain ⟨outs, s', hreads, houts⟩ := h.reads hs (Nat.zero_le _) hlens hfine
    rw [← houts] at hfront hlimit
    exact ⟨outs, s', hreads, hfront, hlimit, fun _ _ _ => eq_nil_of_at_limit hlimit⟩

end

theorem length_delivered_le (hpos : pos ≤ view.length) :
    (delivered view short pos lens).length ≤ view.length - pos := by
  induction lens generalizing pos with
  | nil => exact Nat.zero_le _
  | cons len lens ih =>
    have hrest := ih (Nat.min_le_right (pos + len) view.length)
    have hgot : (got view short pos len).length ≤ min len (view.length - pos) := by
      rw [got]
      split
      · rw [length_take, length_drop]
      · exact Nat.zero_le _
    rw [delivered, length_append]
    omega

/-! What is delivered, when reads are cut off at the end. -/

theorem drop_min (view : List α) (n : Nat) : view.drop (min n view.length) = view.drop n := by
  obtain hlt | hle := Nat.lt_or_ge view.length n
  · rw [Nat.min_eq_right hlt.le, drop_length, drop_of_length_le hlt.le]
  · rw [Nat.min_eq_left hle]

theorem delivered_short (hpos : pos ≤ view.length) :
    delivered view true pos lens = (view.drop pos).take lens.sum := by
  induction lens generalizing pos with
  | nil => simp [delivered]
  | cons len lens ih =>
    rw [delivered, ih (Nat.min_le_right _ _), got, if_pos (.inl rfl), sum_cons, take_add,
      drop_drop, drop_min]

theorem delivered_short_inFile (hlimit : limit ≤ view.length) :
    delivered view true 0 lens <+: view.take limit ↔ lens.sum ≤ limit ∨ view.length = limit := by
  rw [delivered_short (Nat.zero_le _), drop_zero]
  constructor
  · intro h
    have := h.length_le
    rw [length_take, length_take] at this
    omega
  · rintro (hsum | rfl)
    · exact take_prefix_take_left hsum
    · rw [take_length]
      exact take_prefix _ _

/-! What is delivered, when a read behind the end returns nothing. -/

theorem delivered_whole_end (hlens : ∀ len ∈ lens, 0 < len) :
    delivered view false view.length lens = [] := by
  induction lens with
  | nil => rfl
  | cons len lens ih =>
    rw [forall_mem_cons] at hlens
    rw [delivered, got, if_neg (by simp; omega), Nat.min_eq_right (Nat.le_add_right _ _),
      ih hlens.2, append_nil]

theorem take_delivered_whole (hpos : pos ≤ limit) (hlimit : limit ≤ view.length)
    (hlens : ∀ len ∈ lens, 0 < len) :
    view.take pos ++ delivered view false pos lens <+: view.take limit ↔
      ∀ ns, ns <+: lens → pos + ns.sum ≤ limit ∨ view.length < pos + ns.sum := by
  induction lens generalizing pos with
  | nil =>
    rw [delivered, append_nil]
    constructor
    · rintro - ns hns
      rw [prefix_nil.mp hns]
      exact .inl hpos
    · intro _
      exact take_prefix_take_left hpos
  | cons len lens ih =>
    rw [forall_mem_cons] at hlens
    have hlen := hlens.1
    rw [delivered]
    obtain hbehind | hin := Nat.lt_or_ge view.length (pos + len)
    · rw [got, if_neg (by simp; omega), Nat.min_eq_right hbehind.le, delivered_whole_end hlens.2,
        append_nil, append_nil]
      constructor
      · intro _ ns hns
        cases ns with
        | nil => exact .inl hpos
        | cons n ns =>
          obtain ⟨rfl, -⟩ := cons_prefix_cons.mp hns
          rw [sum_cons]
          omega
      · intro _
        exact take_prefix_take_left hpos
    · rw [got, if_pos (.inr hin), Nat.min_eq_left hin, ← append_assoc, ← take_add]
      obtain hlt | hle := Nat.lt_or_ge limit (pos + len)
      · constructor
        · intro h
          have := h.length_le
          rw [length_append, length_take, length_take] at this
          omega
        · intro h
          have := h [len] (by simp)
          rw [sum_singleton] at this
          omega
      · rw [ih hle hlens.2]
        constructor
        · intro h ns hns
          cases ns with
          | nil => exact .inl hpos
          | cons n ns =>
            obtain ⟨rfl, hrest⟩ := cons_prefix_cons.mp hns
            rw [sum_cons, ← add_assoc]
            exact h ns hrest
        · intro h ns hns
          have := h (len :: ns) (cons_prefix_cons.mpr ⟨rfl, hns⟩)
          rwa [sum_cons, ← add_assoc] at this

theorem delivered_whole_inFile (hlimit : limit ≤ view.length) (hlens : ∀ len ∈ lens, 0 < len) :
    delivered view false 0 lens <+: view.take limit ↔
      ∀ ns, ns <+: lens → ns.sum ≤ limit ∨ view.length < ns.sum := by
  have h := take_delivered_whole (Nat.zero_le limit) hlimit hlens
  simpa only [take_zero, nil_append, Nat.zero_add] using h

variable {β : Type} {f : β → List α} {size : Nat}

theorem length_blocks (hsize : ∀ x, (f x).length = size) (xs : List β) :
    (xs.flatMap f).length = size * xs.length := by
  induction xs with
  | nil => rfl
  | cons x xs ih =>
    rw [flatMap_cons, length_append, hsize, ih, length_cons, Nat.mul_succ,
      add_comm]

theorem take_drop_blocks (hsize : ∀ x, (f x).length = size) {xs : List β} {i o len : Nat} {x : β}
    (hx : xs[i]? = some x) (hlen : o + len ≤ size) :
    ((xs.flatMap f).drop (size * i + o)).take len = ((f x).drop o).take len := by
  obtain ⟨hi, rfl⟩ := List.getElem?_eq_some_iff.mp hx
  have hsplit : xs.flatMap f = (xs.take i).flatMap f ++ (f xs[i] ++ (xs.drop (i + 1)).flatMap f) := by
    rw [← flatMap_cons, ← flatMap_append, getElem_cons_drop, take_append_drop]
  have hfront : ((xs.take i).flatMap f).length = size * i := by
    rw [length_blocks hsize, length_take, Nat.min_eq_left hi.le]
  rw [hsplit, ← hfront, ← drop_drop, drop_left, drop_append_of_le_length,
    take_append_of_le_length]
  · rw [length_drop, hsize]
    omega
  · rw [hsize]
    omega

end Quest.Lib.Cursor
