import Quest.Proc.Exec

/-! The first part of `_exec`: the old address space is given back. -/
namespace Quest.Proc

open Quest.Lib Memory Quest.Mem Machine

variable {m m' m1 : Machine} {i j k n t value : Nat}

theorem shiftRight_page (e : Nat) : e >>> 12 = e / 4096 := Nat.shiftRight_eq_div_pow e 12

theorem free_freeFrame {e : Nat} :
    (m.freePhysFrame e).frames.Free k ↔ k = e / 4096 ∨ m.frames.Free k := by
  rw [Machine.freePhysFrame, setFrames_frames, Frames.free_freePhysFrame, shiftRight_page, eq_comm]

def PageDropped (m : Machine) (i t j k : Nat) : Prop :=
  entry m.mem t j ≠ 0 ∧ Freed i j ∧ k = entry m.mem t j / 4096

structure PagesDropped (m m' : Machine) (i t j n : Nat) : Prop where
  pdFrame : m'.pdFrame = m.pdFrame
  kernFrame : m'.kernFrame = m.kernFrame
  limit : m'.frames.mmLimit = m.frames.mmLimit
  free : ∀ k, m'.frames.Free k ↔
    m.frames.Free k ∨ ∃ j', j ≤ j' ∧ j' < j + n ∧ PageDropped m i t j' k
  mem : ∀ a, a / 4096 ≠ t → m'.mem a = m.mem a

theorem exists_from_succ {p : Nat → Prop} :
    (∃ x, i ≤ x ∧ x < i + (n + 1) ∧ p x) ↔ p i ∨ ∃ x, i + 1 ≤ x ∧ x < i + 1 + n ∧ p x := by
  constructor
  · rintro ⟨x, hle, hlt, hx⟩
    obtain rfl | hne := eq_or_ne i x
    · exact .inl hx
    · exact .inr ⟨x, by omega, by omega, hx⟩
  · rintro (hi | ⟨x, hle, hlt, hx⟩)
    · exact ⟨i, le_rfl, by omega, hi⟩
    · exact ⟨x, by omega, by omega, hx⟩

theorem dropPages_spec (hbound : j + n ≤ 1024) :
    PagesDropped m (dropPages i t n j m) i t j n := by
  induction n generalizing j m with
  | zero =>
    refine ⟨rfl, rfl, rfl, fun k => ?_, fun a ha => rfl⟩
    rw [dropPages, or_iff_left]
    omega
  | succ n ih =>
    rw [dropPages]
    obtain ⟨m1, hm1⟩ : ∃ m1, m1 = if entry m.mem t j ≠ 0 ∧ Freed i j then
      (m.freePhysFrame (entry m.mem t j)).writeWord (t * 4096 + 4 * j) 0 else m := ⟨_, rfl⟩
    rw [← hm1]
    have hround : m1.pdFrame = m.pdFrame ∧ m1.kernFrame = m.kernFrame ∧
        m1.frames.mmLimit = m.frames.mmLimit ∧
        (∀ k, m1.frames.Free k ↔ m.frames.Free k ∨ PageDropped m i t j k) ∧
        (∀ a, a / 4096 ≠ t → m1.mem a = m.mem a) ∧
        ∀ j', j < j' → j' < 1024 → entry m1.mem t j' = entry m.mem t j' := by
      split at hm1
      · rename_i hgo
        subst hm1
        refine ⟨rfl, rfl, rfl, fun k => ?_, fun a ha => ?_, fun j' hlt hj' => ?_⟩
        · rw [writeWord_frames, free_freeFrame, or_comm, PageDropped, ← and_assoc,
            and_iff_right hgo]
        · exact setWord_off (by omega) ha
        · rw [entry_writeWord (by omega) (by omega) hj', if_neg (by omega)]
          rfl
      · rename_i hstay
        subst hm1
        refine ⟨rfl, rfl, rfl, fun k => ?_, fun a ha => rfl, fun j' hlt hj' => rfl⟩
        rw [PageDropped, ← and_assoc, or_iff_left fun h => hstay h.1]
    obtain ⟨hpd, hkern, hlimit, hfree, hmem, hentry⟩ := hround
    have h := ih (m := m1) (show j + 1 + n ≤ 1024 by omega)
    refine ⟨h.pdFrame.trans hpd, h.kernFrame.trans hkern, h.limit.trans hlimit, fun k => ?_,
      fun a ha => (h.mem a ha).trans (hmem a ha)⟩
    rw [h.free, hfree, or_assoc, exists_from_succ]
    apply or_congr_right
    apply or_congr_right
    apply exists_congr
    intro j'
    apply and_congr_right
    intro hle
    apply and_congr_right
    intro hlt
    rw [PageDropped, PageDropped, hentry j' (by omega) (by omega)]

def tableAt (m : Machine) (i : Nat) : Nat := entry m.mem m.pdFrame i / 4096

def TableDropped (m : Machine) (i k : Nat) : Prop :=
  entry m.mem m.pdFrame i ≠ 0 ∧
    (k = tableAt m i ∨ ∃ j < 1024, PageDropped m i (tableAt m i) j k)

/-- The tables of `n` entries from `i` on lie in frames of their own. -/
structure TablesApart (m : Machine) (i n : Nat) : Prop where
  dir : ∀ i', i ≤ i' → i' < i + n → entry m.mem m.pdFrame i' ≠ 0 → tableAt m i' ≠ m.pdFrame
  inj : ∀ i' i'', i ≤ i' → i' < i + n → i ≤ i'' → i'' < i + n → entry m.mem m.pdFrame i' ≠ 0 →
    entry m.mem m.pdFrame i'' ≠ 0 → tableAt m i' = tableAt m i'' → i' = i''

structure TablesDropped (m m' : Machine) (i n : Nat) : Prop where
  pdFrame : m'.pdFrame = m.pdFrame
  kernFrame : m'.kernFrame = m.kernFrame
  limit : m'.frames.mmLimit = m.frames.mmLimit
  free : ∀ k, m'.frames.Free k ↔ m.frames.Free k ∨ ∃ i', i ≤ i' ∧ i' < i + n ∧ TableDropped m i' k
  dir : ∀ i' < 1024, entry m'.mem m.pdFrame i' =
    if i ≤ i' ∧ i' < i + n then 0 else entry m.mem m.pdFrame i'
  mem : ∀ a, a / 4096 ≠ m.pdFrame →
    (∀ i', i ≤ i' → i' < i + n → entry m.mem m.pdFrame i' ≠ 0 → a / 4096 ≠ tableAt m i') →
    m'.mem a = m.mem a

theorem TablesDropped.refl (m : Machine) (i : Nat) : TablesDropped m m i 0 := by
  refine ⟨rfl, rfl, rfl, fun k => ?_, fun i' hi' => ?_, fun a _ _ => rfl⟩
  · rw [or_iff_left]
    omega
  · rw [if_neg (by omega)]

theorem dropTable_spec (hi : i < 1024)
    (happart : entry m.mem m.pdFrame i ≠ 0 → tableAt m i ≠ m.pdFrame) :
    TablesDropped m (if entry m.mem m.pdFrame i ≠ 0 then
      ((dropPages i (entry m.mem m.pdFrame i / 4096) 1024 0 m).freePhysFrame
        (entry m.mem m.pdFrame i)).writeWord (m.pdFrame * 4096 + 4 * i) 0 else m) i 1 := by
  split
  · rename_i hgo
    have h : PagesDropped m (dropPages i (tableAt m i) 1024 0 m) i (tableAt m i) 0 1024 :=
      dropPages_spec (by omega)
    rw [show entry m.mem m.pdFrame i / 4096 = tableAt m i from rfl]
    obtain ⟨m1, hm1⟩ : ∃ m1, m1 = dropPages i (tableAt m i) 1024 0 m := ⟨_, rfl⟩
    rw [← hm1] at h ⊢
    refine ⟨h.pdFrame, h.kernFrame, h.limit, fun k => ?_, fun i' hi' => ?_, fun a hpd htable => ?_⟩
    · rw [writeWord_frames, free_freeFrame, h.free, or_left_comm]
      simp only [zero_le, true_and, zero_add]
      apply or_congr_right
      constructor
      · intro hk
        exact ⟨i, le_rfl, by omega, hgo, hk⟩
      · rintro ⟨i', hle, hlt, hk⟩
        obtain rfl : i' = i := by omega
        exact hk.2
    · rw [entry_writeWord (by omega) hi hi']
      by_cases heq : i' = i
      · rw [if_pos ⟨rfl, heq⟩, if_pos (by omega)]
      · rw [if_neg fun hh => heq hh.2, if_neg (by omega)]
        exact entry_congr (fun a ha => h.mem a (ha ▸ (happart hgo).symm)) hi'
    · exact (setWord_off hi hpd).trans (h.mem a (htable i le_rfl (by omega) hgo))
  · rename_i hstay
    refine ⟨rfl, rfl, rfl, fun k => ?_, fun i' hi' => ?_, fun a _ _ => rfl⟩
    · rw [or_iff_left]
      rintro ⟨i', hle, hlt, hk⟩
      obtain rfl : i' = i := by omega
      exact hstay hk.1
    · split
      · rename_i heq
        obtain rfl : i' = i := by omega
        exact not_not.mp hstay
      · rfl

theorem TablesDropped.later (h : TablesDropped m m1 i 1) (happart : TablesApart m i (n + 1))
    {i' : Nat} (hlt : i < i') (hi' : i' < i + (n + 1)) (hbound : i + (n + 1) ≤ 1024) :
    entry m1.mem m1.pdFrame i' = entry m.mem m.pdFrame i' ∧
      (entry m.mem m.pdFrame i' ≠ 0 →
        ∀ j < 1024, entry m1.mem (tableAt m i') j = entry m.mem (tableAt m i') j) := by
  refine ⟨?_, fun hpres j hj => ?_⟩
  · rw [h.pdFrame, h.dir i' (by omega), if_neg (by omega)]
  · apply entry_congr _ hj
    intro a ha
    apply h.mem
    · rw [ha]
      exact happart.dir i' (by omega) hi' hpres
    · intro i'' hle' hlt' hpres'
      obtain rfl : i'' = i := by omega
      intro heq
      have := happart.inj i' i'' (by omega) hi' le_rfl (by omega) hpres hpres'
        (ha.symm.trans heq)
      omega

theorem dropTables_spec (happart : TablesApart m i n) (hbound : i + n ≤ 1024) :
    TablesDropped m (dropTables n i m) i n := by
  induction n generalizing i m with
  | zero => exact .refl m i
  | succ n ih =>
    rw [dropTables]
    obtain ⟨m1, hm1⟩ : ∃ m1, m1 = if entry m.mem m.pdFrame i ≠ 0 then
      ((dropPages i (entry m.mem m.pdFrame i / 4096) 1024 0 m).freePhysFrame
        (entry m.mem m.pdFrame i)).writeWord (m.pdFrame * 4096 + 4 * i) 0 else m := ⟨_, rfl⟩
    have hround : TablesDropped m m1 i 1 :=
      hm1 ▸ dropTable_spec (by omega) (happart.dir i le_rfl (by omega))
    rw [← hm1]
    have hdir : ∀ i', i < i' → i' < i + (n + 1) →
        entry m1.mem m1.pdFrame i' = entry m.mem m.pdFrame i' := fun i' hlt hi' =>
      (hround.later happart hlt hi' hbound).1
    have htable : ∀ i', i < i' → i' < i + (n + 1) → tableAt m1 i' = tableAt m i' :=
      fun i' hlt hi' => congrArg (· / 4096) (hdir i' hlt hi')
    have h : TablesDropped m1 (dropTables n (i + 1) m1) (i + 1) n := by
      apply ih _ (by omega)
      refine ⟨fun i' hle hlt => ?_, fun i' i'' hle hlt hle' hlt' => ?_⟩
      · rw [hdir i' (by omega) (by omega), htable i' (by omega) (by omega), hround.pdFrame]
        exact happart.dir i' (by omega) (by omega)
      · rw [hdir i' (by omega) (by omega), htable i' (by omega) (by omega),
          hdir i'' (by omega) (by omega), htable i'' (by omega) (by omega)]
        exact happart.inj i' i'' (by omega) (by omega) (by omega) (by omega)
    refine ⟨h.pdFrame.trans hround.pdFrame, h.kernFrame.trans hround.kernFrame,
      h.limit.trans hround.limit, fun k => ?_, fun i' hi' => ?_, fun a hpd htables => ?_⟩
    · rw [h.free, hround.free, or_assoc, exists_from_succ, exists_from_succ]
      apply or_congr_right
      rw [or_assoc]
      apply or_congr_right
      rw [or_iff_right fun ⟨i', hle, hlt, _⟩ => by omega]
      apply exists_congr
      intro i'
      apply and_congr_right
      intro hle
      apply and_congr_right
      intro hlt
      rw [TableDropped, TableDropped, hdir i' (by omega) (by omega),
        htable i' (by omega) (by omega)]
      apply and_congr_right
      intro hpres
      apply or_congr_right
      apply exists_congr
      intro j
      apply and_congr_right
      intro hj
      rw [PageDropped, PageDropped,
        (hround.later happart (by omega) (by omega) hbound).2 hpres j hj]
    · have h' := h.dir i' hi'
      rw [hround.pdFrame] at h'
      rw [h', hround.dir i' hi']
      by_cases hin : i + 1 ≤ i' ∧ i' < i + 1 + n
      · rw [if_pos hin, if_pos (by omega)]
      · rw [if_neg hin]
        by_cases heq : i' = i
        · rw [if_pos (by omega), if_pos (by omega)]
        · rw [if_neg (by omega), if_neg (by omega)]
    · rw [h.mem a (hround.pdFrame ▸ hpd), hround.mem a hpd]
      · intro i' hle hlt
        exact htables i' hle (by omega)
      · intro i' hle hlt
        rw [hdir i' (by omega) (by omega), htable i' (by omega) (by omega)]
        exact htables i' (by omega) (by omega)

end Quest.Proc
