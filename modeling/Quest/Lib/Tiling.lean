import Mathlib

/-! Blocks of addresses, and how often an address is covered by a list of them. -/
namespace Quest.Lib.Tiling

structure Block where
  base : Nat
  size : Nat
  deriving DecidableEq, Repr

def Block.stop (b : Block) : Nat := b.base + b.size

def Block.Covers (b : Block) (a : Nat) : Prop := b.base ≤ a ∧ a < b.base + b.size

instance (b : Block) (a : Nat) : Decidable (b.Covers a) := inferInstanceAs (Decidable (_ ∧ _))

def Block.Disjoint (b b' : Block) : Prop := ∀ a, b.Covers a → ¬b'.Covers a

def cover (blocks : List Block) (a : Nat) : Nat := blocks.countP fun b => b.Covers a

variable {blocks blocks' : List Block} {b : Block} {a : Nat}

@[simp] theorem cover_nil : cover [] a = 0 := rfl

@[simp] theorem cover_cons : cover (b :: blocks) a = cover blocks a + if b.Covers a then 1 else 0 := by
  simp [cover, List.countP_cons]

@[simp] theorem cover_append : cover (blocks ++ blocks') a = cover blocks a + cover blocks' a :=
  List.countP_append

theorem cover_perm (h : blocks.Perm blocks') : cover blocks a = cover blocks' a := h.countP_eq _

theorem cover_split (base size size' a : Nat) :
    (if (Block.mk base (size + size')).Covers a then 1 else 0) =
      (if (Block.mk base size).Covers a then 1 else 0) +
        if (Block.mk (base + size) size').Covers a then 1 else 0 := by
  have hsplit : (Block.mk base (size + size')).Covers a ↔
      (Block.mk base size).Covers a ∨ (Block.mk (base + size) size').Covers a := by
    simp only [Block.Covers]
    omega
  have hapart : (Block.mk base size).Covers a → ¬(Block.mk (base + size) size').Covers a := by
    simp only [Block.Covers]
    omega
  by_cases hleft : (Block.mk base size).Covers a
  · rw [if_pos hleft, if_neg (hapart hleft), if_pos (hsplit.mpr (.inl hleft))]
  · rw [if_neg hleft, Nat.zero_add]
    congr 1
    exact propext (hsplit.trans (or_iff_right hleft))

theorem cover_pos : 0 < cover blocks a ↔ ∃ b ∈ blocks, b.Covers a := by
  simp [cover, List.countP_pos_iff]

theorem pairwise_disjoint (h : ∀ a, cover blocks a ≤ 1) : blocks.Pairwise Block.Disjoint := by
  induction blocks with
  | nil => exact .nil
  | cons b blocks ih =>
    constructor
    · intro b' hb' a ha ha'
      have hpos : 0 < cover blocks a := cover_pos.mpr ⟨b', hb', ha'⟩
      have := h a
      rw [cover_cons, if_pos ha] at this
      omega
    · apply ih
      intro a
      have := h a
      rw [cover_cons] at this
      omega

theorem cover_le_one (h : blocks.Pairwise Block.Disjoint) : cover blocks a ≤ 1 := by
  induction blocks with
  | nil => exact Nat.zero_le 1
  | cons b blocks ih =>
    obtain ⟨hb, hblocks⟩ := List.pairwise_cons.mp h
    rw [cover_cons]
    split
    · rename_i ha
      have hzero : ¬0 < cover blocks a := by
        rw [cover_pos]
        rintro ⟨b', hb', ha'⟩
        exact hb b' hb' a ha ha'
      omega
    · exact ih hblocks

theorem Block.Disjoint.apart {c : Block} (h : b.Disjoint c) (hb : 0 < b.size) (hc : 0 < c.size) :
    b.stop ≤ c.base ∨ c.stop ≤ b.base := by
  have hboth := h (max b.base c.base)
  simp only [Block.Covers, Block.stop] at hboth ⊢
  omega

/-- The second list comes from the first by cutting blocks in two halves, any number of times. -/
inductive Cuts : Multiset Block → Multiset Block → Prop where
  | refl (blocks : Multiset Block) : Cuts blocks blocks
  | halve {blocks rest : Multiset Block} {base size : Nat} :
      Cuts blocks (⟨base, size + size⟩ ::ₘ rest) →
      Cuts blocks (⟨base, size⟩ ::ₘ ⟨base + size, size⟩ ::ₘ rest)

/-- The second block remains of the first when it is cut in two halves, the second half again in
two, and so on; the first halves are the rest. -/
inductive Split (b : Block) : Block → Multiset Block → Prop where
  | refl : Split b b 0
  | halve {rest : Multiset Block} {base size : Nat} :
      Split b ⟨base, size + size⟩ rest → Split b ⟨base + size, size⟩ (⟨base, size⟩ ::ₘ rest)

theorem Split.cuts {b' : Block} {rest : Multiset Block} (h : Split b b' rest)
    (others : Multiset Block) : Cuts (b ::ₘ others) (b' ::ₘ (rest + others)) := by
  induction h with
  | refl => rw [Multiset.zero_add]; exact .refl _
  | halve _ ih => rw [Multiset.cons_add, Multiset.cons_swap]; exact ih.halve

end Quest.Lib.Tiling
