import Mathlib

/-! The sporadic server on a plain list of replenishments. -/
namespace Quest.Sched.Ledger

open List

structure Entry where
  t : Nat
  b : Nat
  deriving DecidableEq, Repr

abbrev Entry.Before (r s : Entry) : Prop := r.t ≤ s.t

instance : IsTrans Entry Entry.Before := ⟨fun _ _ _ => Nat.le_trans⟩
instance : Std.Total Entry.Before := ⟨fun r s => Nat.le_total r.t s.t⟩

/-- A new replenishment goes before the first one that is not earlier. -/
def insert (r : Entry) (es : List Entry) : List Entry :=
  es.orderedInsert Entry.Before r

def amount (es : List Entry) : Nat := (es.map Entry.b).sum

def capacity (usage now : Nat) : List Entry → Int
  | [] => 0
  | r :: _ => if now < r.t then 0 else (r.b : Int) - usage

def exhaust (T : Nat) : Nat → Nat → List Entry → Nat × List Entry
  | fuel + 1, usage, r :: es =>
      if r.b ≤ usage then exhaust T fuel (usage - r.b) (insert ⟨r.t + T, r.b⟩ es)
      else (usage, r :: es)
  | _, usage, es => (usage, es)

def postpone (overrun : Nat) : List Entry → List Entry
  | r :: s :: es =>
      if s.t ≤ r.t + overrun + r.b then ⟨r.t + overrun, s.b + r.b⟩ :: es
      else ⟨r.t + overrun, r.b⟩ :: s :: es
  | [r] => [⟨r.t + overrun, r.b⟩]
  | [] => []

def budgetCheck (T now usage : Nat) (es : List Entry) : Nat × List Entry :=
  if capacity usage now es ≤ 0 then
    let (rest, es) := exhaust T (usage + 1) usage es
    if 0 < rest then (rest, postpone rest es) else (rest, es)
  else (usage, es)

/-- The used part of the head is posted a period later.  The unused part stays,
unless the queue is full: then it moves into the next replenishment. -/
def splitCheck (limit T now usage : Nat) : List Entry → Nat × List Entry
  | r :: es =>
      if 0 < usage ∧ r.t ≤ now then
        if (r :: es).length = limit then
          match es with
          | s :: rest => (0, insert ⟨s.t + T, usage⟩ (⟨s.t, s.b + (r.b - usage)⟩ :: rest))
          | [] => (usage, [r])
        else (0, insert ⟨r.t + T, usage⟩ (⟨r.t, r.b - usage⟩ :: es))
      else (usage, r :: es)
  | [] => (usage, [])

def mergeDue (now usage : Nat) : Nat → List Entry → List Entry
  | b, [] => [⟨now, b⟩]
  | b, s :: es =>
      if s.t ≤ now + b - usage then mergeDue now usage (s.b + b) es
      else ⟨now, b⟩ :: s :: es

def unblockCheck (now now' usage : Nat) : List Entry → List Entry
  | r :: es => if 0 < capacity usage now (r :: es) then mergeDue now' usage r.b es else r :: es
  | [] => []

/-- The end of a timeslice that brought the usage to `usage`. -/
def endTimeslice (limit T : Nat) (runnable : Bool) (usage now₁ now₂ : Nat) (es : List Entry) :
    Nat × List Entry :=
  let (usage, es) := budgetCheck T now₁ usage es
  if runnable then (usage, es) else splitCheck limit T now₂ usage es

def nextEvent (now : Nat) (es : List Entry) : Nat :=
  ((es.find? fun r => now < r.t).map Entry.t).getD 0

@[simp] theorem amount_nil : amount [] = 0 := rfl

@[simp] theorem amount_cons (r : Entry) (es : List Entry) :
    amount (r :: es) = r.b + amount es := rfl

variable {es : List Entry}

theorem amount_perm {fs : List Entry} (h : es.Perm fs) : amount es = amount fs :=
  (h.map Entry.b).sum_eq

theorem insert_perm (r : Entry) (es : List Entry) : (insert r es).Perm (r :: es) :=
  perm_orderedInsert _ r es

@[simp] theorem mem_insert {r s : Entry} : s ∈ insert r es ↔ s = r ∨ s ∈ es :=
  mem_orderedInsert _

/-- What holds of the replenishments of a server of capacity `C` whose queue has
room for `limit` of them. -/
structure Balanced (limit C : Nat) (es : List Entry) : Prop where
  amount_eq : amount es = C
  positive : ∀ r ∈ es, 0 < r.b ∧ 0 < r.t
  nonempty : es ≠ []
  fits : es.length ≤ limit

def Unspent (usage : Nat) : List Entry → Prop
  | [] => False
  | r :: _ => usage < r.b

@[simp] theorem unspent_cons (usage : Nat) (r : Entry) (es : List Entry) :
    Unspent usage (r :: es) ↔ usage < r.b := Iff.rfl

variable {limit C T : Nat}

theorem balanced_cons {r : Entry} :
    Balanced limit C (r :: es) ↔ (0 < r.b ∧ 0 < r.t) ∧ (∀ s ∈ es, 0 < s.b ∧ 0 < s.t) ∧
      r.b + amount es = C ∧ es.length + 1 ≤ limit := by
  constructor
  · intro h
    have hall := forall_mem_cons.mp h.positive
    exact ⟨hall.1, hall.2, h.amount_eq, h.fits⟩
  · rintro ⟨hr, hes, hamount, hfits⟩
    exact ⟨hamount, forall_mem_cons.mpr ⟨hr, hes⟩, cons_ne_nil r es, hfits⟩

theorem Balanced.perm {fs : List Entry} (h : Balanced limit C es) (hperm : fs.Perm es) :
    Balanced limit C fs where
  amount_eq := (amount_perm hperm).trans h.amount_eq
  positive r hr := h.positive r (hperm.mem_iff.mp hr)
  nonempty := by
    rintro rfl
    exact h.nonempty (nil_perm.mp hperm)
  fits := hperm.length_eq ▸ h.fits

theorem balanced_insert {r : Entry} : Balanced limit C (insert r es) ↔ Balanced limit C (r :: es) :=
  ⟨fun h => h.perm (insert_perm r es).symm, fun h => h.perm (insert_perm r es)⟩

theorem exhaust_spec (fuel usage : Nat) (es : List Entry) (h : Balanced limit C es)
    (hfuel : usage < fuel) :
    Balanced limit C (exhaust T fuel usage es).2 ∧
      Unspent (exhaust T fuel usage es).1 (exhaust T fuel usage es).2 := by
  induction fuel generalizing usage es with
  | zero => omega
  | succ fuel ih =>
    cases es with
    | nil => exact absurd rfl h.nonempty
    | cons r rest =>
      rw [exhaust]
      split
      · rw [balanced_cons] at h
        refine ih _ _ (balanced_insert.mpr (balanced_cons.mpr ?_)) (by omega)
        exact ⟨⟨h.1.1, Nat.add_pos_left h.1.2 T⟩, h.2⟩
      · rename_i hless
        exact ⟨h, by simpa using hless⟩

theorem postpone_spec (usage : Nat) (es : List Entry) (h : Balanced limit C es)
    (hleft : Unspent usage es) :
    Balanced limit C (postpone usage es) ∧ Unspent usage (postpone usage es) := by
  match es with
  | [] => exact hleft.elim
  | [r] =>
    rw [balanced_cons] at h
    exact ⟨balanced_cons.mpr ⟨⟨h.1.1, Nat.add_pos_left h.1.2 usage⟩, h.2⟩, hleft⟩
  | r :: s :: rest =>
    rw [balanced_cons] at h
    obtain ⟨⟨hb, ht⟩, hrest, hamount, hfits⟩ := h
    rw [amount_cons, length_cons] at *
    rw [forall_mem_cons] at hrest
    rw [postpone]
    split
    · refine ⟨balanced_cons.mpr ⟨⟨?_, ?_⟩, hrest.2, ?_, ?_⟩, ?_⟩ <;> simp at hleft ⊢ <;> omega
    · refine ⟨balanced_cons.mpr ⟨⟨hb, ?_⟩, forall_mem_cons.mpr hrest, hamount, hfits⟩,
        hleft⟩
      exact Nat.add_pos_left ht usage

theorem budgetCheck_spec (now usage : Nat) (es : List Entry) (h : Balanced limit C es) :
    Balanced limit C (budgetCheck T now usage es).2 ∧
      Unspent (budgetCheck T now usage es).1 (budgetCheck T now usage es).2 := by
  unfold budgetCheck
  split
  · have hexhaust := exhaust_spec (T := T) (usage + 1) usage es h (Nat.lt_succ_self usage)
    dsimp only
    split
    · exact postpone_spec _ _ hexhaust.1 hexhaust.2
    · exact hexhaust
  · rename_i hcap
    refine ⟨h, ?_⟩
    cases es with
    | nil => exact absurd rfl h.nonempty
    | cons r rest =>
      rw [capacity] at hcap
      split at hcap
      · omega
      · rw [unspent_cons]
        omega

theorem splitCheck_spec (now usage : Nat) (es : List Entry) (hlimit : 1 < limit)
    (h : Balanced limit C es) (hleft : Unspent usage es) :
    Balanced limit C (splitCheck limit T now usage es).2 ∧
      Unspent (splitCheck limit T now usage es).1 (splitCheck limit T now usage es).2 := by
  have positive_head {fs : List Entry} (hfs : Balanced limit C fs) : Unspent 0 fs := by
    cases fs with
    | nil => exact absurd rfl hfs.nonempty
    | cons r rest => exact (hfs.positive r (by simp)).1
  match es with
  | [] => exact hleft.elim
  | r :: es =>
    simp only [splitCheck]
    split
    · rename_i hsplit
      rw [unspent_cons] at hleft
      obtain ⟨⟨hb, ht⟩, hrest, hamount, hfits⟩ := balanced_cons.mp h
      split
      · rename_i hfull
        match es with
        | [] =>
          rw [length_singleton] at hfull
          omega
        | s :: rest =>
          rw [forall_mem_cons] at hrest
          have hbal : Balanced limit C
              (insert ⟨s.t + T, usage⟩ (⟨s.t, s.b + (r.b - usage)⟩ :: rest)) := by
            refine balanced_insert.mpr (balanced_cons.mpr
              ⟨⟨hsplit.1, Nat.add_pos_left hrest.1.2 T⟩, forall_mem_cons.mpr
                ⟨⟨Nat.add_pos_left hrest.1.1 _, hrest.1.2⟩, hrest.2⟩, ?_, hfits⟩)
            rw [amount_cons] at hamount ⊢
            dsimp only
            omega
          exact ⟨hbal, positive_head hbal⟩
      · rename_i hroom
        have hbal : Balanced limit C
            (insert ⟨r.t + T, usage⟩ (⟨r.t, r.b - usage⟩ :: es)) := by
          refine balanced_insert.mpr (balanced_cons.mpr
            ⟨⟨hsplit.1, Nat.add_pos_left ht T⟩, forall_mem_cons.mpr
              ⟨⟨Nat.sub_pos_of_lt hleft, ht⟩, hrest⟩, ?_, ?_⟩)
          · rw [amount_cons]
            dsimp only
            omega
          · rw [length_cons] at hroom ⊢
            omega
        exact ⟨hbal, positive_head hbal⟩
    · exact ⟨h, hleft⟩

theorem mergeDue_spec (now usage b : Nat) (es : List Entry) (hnow : 0 < now)
    (h : Balanced limit C (⟨now, b⟩ :: es)) (hleft : usage < b) :
    Balanced limit C (mergeDue now usage b es) ∧ Unspent usage (mergeDue now usage b es) := by
  induction es generalizing b with
  | nil => exact ⟨h, hleft⟩
  | cons s rest ih =>
    rw [mergeDue]
    split
    · obtain ⟨hb, hrest, hamount, hfits⟩ := balanced_cons.mp h
      rw [forall_mem_cons] at hrest
      rw [amount_cons, length_cons] at *
      refine ih (s.b + b) (balanced_cons.mpr ⟨⟨?_, hnow⟩, hrest.2, ?_, ?_⟩) ?_ <;>
        dsimp only at * <;> omega
    · exact ⟨h, hleft⟩

theorem unblockCheck_spec (now now' usage : Nat) (es : List Entry) (hle : now ≤ now')
    (h : Balanced limit C es) (hleft : Unspent usage es) :
    Balanced limit C (unblockCheck now now' usage es) ∧
      Unspent usage (unblockCheck now now' usage es) := by
  match es with
  | [] => exact hleft.elim
  | r :: es =>
    rw [unblockCheck]
    split
    · rename_i hcap
      -- the head is available at `now`, so the time it is moved to is not 0
      have hdue : r.t ≤ now := by
        rw [capacity] at hcap
        split at hcap <;> omega
      obtain ⟨⟨hb, ht⟩, hrest⟩ := balanced_cons.mp h
      exact mergeDue_spec now' usage r.b es (by omega)
        (balanced_cons.mpr ⟨⟨hb, by dsimp only; omega⟩, hrest⟩) hleft
    · exact ⟨h, hleft⟩

theorem endTimeslice_spec (runnable : Bool) (usage now1 now2 : Nat) (es : List Entry)
    (hlimit : 1 < limit) (h : Balanced limit C es) :
    let result := endTimeslice limit T runnable usage now1 now2 es
    Balanced limit C result.2 ∧ Unspent result.1 result.2 := by
  have hbudget := budgetCheck_spec (T := T) now1 usage es h
  cases runnable with
  | true => exact hbudget
  | false => exact splitCheck_spec now2 _ _ hlimit hbudget.1 hbudget.2

section Order

abbrev Ordered (es : List Entry) : Prop := es.Pairwise Entry.Before

def BeforeThird (overrun : Nat) : List Entry → Prop
  | first :: _ :: third :: _ => first.t + overrun ≤ third.t
  | _ => True

instance (overrun : Nat) : (es : List Entry) → Decidable (BeforeThird overrun es)
  | [] => isTrue trivial
  | [_] => isTrue trivial
  | [_, _] => isTrue trivial
  | first :: _ :: third :: _ => inferInstanceAs (Decidable (first.t + overrun ≤ third.t))

variable {es : List Entry}

theorem insert_ordered (r : Entry) (h : Ordered es) : Ordered (insert r es) :=
  h.orderedInsert r es

theorem ordered_head {r s : Entry} (h : Ordered (r :: es)) (ht : s.t = r.t) :
    Ordered (s :: es) := by
  rw [Ordered, pairwise_cons] at h ⊢
  unfold Entry.Before at *
  rwa [ht]

theorem ordered_cons_le {r s : Entry} (h : Ordered (s :: es)) (hle : r.t ≤ s.t) :
    Ordered (r :: s :: es) := by
  rw [Ordered, pairwise_cons]
  refine ⟨?_, h⟩
  rw [forall_mem_cons]
  exact ⟨hle, fun q hq => hle.trans (rel_of_pairwise_cons h hq)⟩

theorem exhaust_le (fuel usage : Nat) (es : List Entry) : (exhaust T fuel usage es).1 ≤ usage := by
  induction fuel generalizing usage es with
  | zero => exact le_refl usage
  | succ fuel ih =>
    cases es with
    | nil => exact le_refl usage
    | cons r rest =>
      rw [exhaust]
      split
      · exact (ih _ _).trans (Nat.sub_le _ _)
      · exact le_refl usage

theorem exhaust_ordered (fuel usage : Nat) (h : Ordered es) :
    Ordered (exhaust T fuel usage es).2 := by
  induction fuel generalizing usage es with
  | zero => exact h
  | succ fuel ih =>
    cases es with
    | nil => exact h
    | cons r rest =>
      rw [exhaust]
      split
      · exact ih _ (insert_ordered _ h.of_cons)
      · exact h

theorem postpone_ordered_iff (overrun : Nat) (h : Ordered es) :
    Ordered (postpone overrun es) ↔ BeforeThird overrun es := by
  match es with
  | [] => exact iff_of_true h trivial
  | [r] => exact iff_of_true (pairwise_singleton _ _) trivial
  | [r, s] =>
    refine iff_of_true ?_ trivial
    rw [postpone]
    split
    · exact pairwise_singleton _ _
    · apply ordered_cons_le h.of_cons
      dsimp only
      omega
  | r :: s :: third :: rest =>
    have hlater : s.t ≤ third.t := rel_of_pairwise_cons h.of_cons (by simp)
    rw [postpone, BeforeThird]
    split
    · constructor
      · intro hpost
        exact rel_of_pairwise_cons hpost (by simp)
      · intro hbefore
        exact ordered_cons_le h.of_cons.of_cons hbefore
    · have hbefore : r.t + overrun ≤ s.t := by omega
      exact iff_of_true (ordered_cons_le h.of_cons hbefore) (hbefore.trans hlater)

theorem splitCheck_ordered (now usage : Nat) (h : Ordered es) :
    Ordered (splitCheck limit T now usage es).2 := by
  match es with
  | [] => exact h
  | r :: es =>
    simp only [splitCheck]
    split
    · split
      · match es with
        | [] => exact h
        | s :: rest => exact insert_ordered _ (ordered_head h.of_cons rfl)
      · exact insert_ordered _ (ordered_head h rfl)
    · exact h

theorem mergeDue_ordered (now usage b : Nat) (h : Ordered es) (hleft : usage < b)
    : Ordered (mergeDue now usage b es) := by
  induction es generalizing b with
  | nil => exact pairwise_singleton _ _
  | cons s rest ih =>
    rw [mergeDue]
    split
    · exact ih _ h.of_cons (by omega)
    · apply ordered_cons_le h
      dsimp only
      omega

theorem unblockCheck_ordered (now now' usage : Nat) (h : Ordered es) (hleft : Unspent usage es)
    : Ordered (unblockCheck now now' usage es) := by
  match es with
  | [] => exact h
  | r :: es =>
    rw [unblockCheck]
    split
    · exact mergeDue_ordered now' usage r.b h.of_cons hleft
    · exact h

end Order

end Quest.Sched.Ledger
