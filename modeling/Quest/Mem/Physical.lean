import Quest.Basic
import Quest.Lib.Bitmap
import Quest.Lib.Reach
import Quest.Lib.RunSearch

/-! The bitmap of physical page frames: `kernel/mem/physical.c`.  A set bit is a
free frame. -/
namespace Quest.Mem

open Quest.Lib Bitmap Reach List

def physIndexMax : Nat := 32768

theorem tableBits_eq : 32 * physIndexMax = 2 ^ 20 := rfl

/-- `mm_table` and `mm_limit`; the limit does not exceed the 4 GB that the table
describes. -/
structure Frames where
  mmTable : Table
  mmLimit : Nat
  mmLimit_le : mmLimit ≤ 32 * physIndexMax

theorem no_limit_le : 0 ≤ 32 * physIndexMax := Nat.zero_le _

theorem small_limit_le : 32 ≤ 32 * physIndexMax := by decide

def noFrame : Nat := 0xFFFFFFFF

namespace Frames

def Free (f : Frames) (i : Nat) : Prop := test f.mmTable i = true

instance (f : Frames) (i : Nat) : Decidable (f.Free i) := inferInstanceAs (Decidable (_ = true))

def tst (f : Frames) (i : Nat) : Except Fault Bool :=
  if i < 32 * physIndexMax then .ok (test f.mmTable i) else .error .outOfBounds

def clr (f : Frames) (i count : Nat) : Frames :=
  { f with mmTable := clearRange f.mmTable i count }

def allocPhysFrameFrom (f : Frames) : Nat → Nat → Except Fault (Nat × Frames)
  | 0, _ => .ok (noFrame, f)
  | rounds + 1, i => do
    if ← f.tst i then
      .ok (i <<< 12, f.clr i 1)
    else
      f.allocPhysFrameFrom rounds (i + 1)

def allocPhysFrame (f : Frames) : Except Fault (Nat × Frames) :=
  f.allocPhysFrameFrom f.mmLimit 0

def firstUsed (f : Frames) (i : Nat) : Nat → Nat → Except Fault (Option Nat)
  | 0, _ => .ok none
  | rounds + 1, j => do
    if ← f.tst (i + j) then
      f.firstUsed i rounds (j + 1)
    else
      .ok (some j)

/-- The search of `alloc_phys_frames`: a used frame in the window moves the search
behind that frame. -/
def allocPhysFramesFrom (f : Frames) (count bound : Nat) :
    Nat → Nat → Except Fault (Nat × Frames)
  | 0, _ => .error .diverges
  | fuel + 1, i =>
    if i < bound then do
      match ← f.firstUsed i count 0 with
      | some j => f.allocPhysFramesFrom count bound fuel (i + j + 1)
      | none => .ok (i <<< 12, f.clr i count)
    else
      .ok (noFrame, f)

def searchBound (f : Frames) (count : Nat) : Nat := (f.mmLimit + 2 ^ 32 - count + 1) % 2 ^ 32

def allocPhysFrames (f : Frames) (count : Nat) : Except Fault (Nat × Frames) :=
  f.allocPhysFramesFrom count (f.searchBound count) (f.searchBound count + 1) 0

def freePhysFrame (f : Frames) (frame : Nat) : Frames :=
  { f with mmTable := set f.mmTable (frame >>> 12) }

def freePhysFrames (f : Frames) (frame count : Nat) : Except Fault Frames :=
  if (frame >>> 12) + count ≤ 32 * physIndexMax then
    .ok { f with mmTable := setRange f.mmTable (frame >>> 12) count }
  else
    .error .outOfBounds

variable {f : Frames} {i j k count bound fuel rounds : Nat}

theorem free_clr : (f.clr i count).Free k ↔ f.Free k ∧ ¬(i ≤ k ∧ k < i + count) := by
  rw [Free, clr, test_clearRange, and_comm]
  rfl

theorem free_freePhysFrame {frame : Nat} :
    (f.freePhysFrame frame).Free k ↔ frame >>> 12 = k ∨ f.Free k := by
  rw [Free, freePhysFrame, test_set, Bool.or_eq_true, decide_eq_true_eq]
  rfl

theorem freePhysFrames_inside {frame : Nat} (h : frame >>> 12 + count ≤ 32 * physIndexMax) :
    ∃ f', f.freePhysFrames frame count = .ok f' ∧ f'.mmLimit = f.mmLimit ∧
      ∀ k, f'.Free k ↔ (frame >>> 12 ≤ k ∧ k < frame >>> 12 + count) ∨ f.Free k := by
  rw [freePhysFrames, if_pos h]
  exact ⟨_, rfl, rfl, fun k => test_setRange⟩

theorem tst_inside (h : i < 32 * physIndexMax) : f.tst i = .ok (decide (f.Free i)) := by
  rw [tst, if_pos h]
  congr 1
  exact Bool.decide_eq_true.symm

theorem tst_outside (h : ¬i < 32 * physIndexMax) : f.tst i = .error .outOfBounds := if_neg h

theorem allocPhysFrameFrom_spec (hbelow : i + rounds ≤ f.mmLimit) :
    (∃ k, i ≤ k ∧ k < i + rounds ∧ f.Free k ∧ (∀ k', i ≤ k' → k' < k → ¬f.Free k') ∧
        f.allocPhysFrameFrom rounds i = .ok (k <<< 12, f.clr k 1)) ∨
      ((∀ k, i ≤ k → k < i + rounds → ¬f.Free k) ∧
        f.allocPhysFrameFrom rounds i = .ok (noFrame, f)) := by
  have hlimit := f.mmLimit_le
  induction rounds generalizing i with
  | zero => exact .inr ⟨fun k _ _ => by omega, rfl⟩
  | succ rounds ih =>
    rw [allocPhysFrameFrom, tst_inside (by omega), ok_bind]
    by_cases hfree : f.Free i
    · rw [if_pos (decide_eq_true hfree)]
      exact .inl ⟨i, le_rfl, by omega, hfree, fun k' _ _ => by omega, rfl⟩
    · rw [if_neg (by simpa using hfree)]
      have hskip : ∀ k', i ≤ k' → k' < i + 1 → ¬f.Free k' := by
        intro k' hle hlt
        rwa [show k' = i by omega]
      obtain ⟨k, hle, hlt, hk, hbefore, hret⟩ | ⟨hnone, hret⟩ := ih (i := i + 1) (by omega)
      · refine .inl ⟨k, by omega, by omega, hk, fun k' hle' hlt' => ?_, hret⟩
        by_cases hfirst : k' < i + 1
        · exact hskip k' hle' hfirst
        · exact hbefore k' (by omega) hlt'
      · refine .inr ⟨fun k hle hlt => ?_, hret⟩
        by_cases hfirst : k < i + 1
        · exact hskip k hle hfirst
        · exact hnone k (by omega) (by omega)

theorem allocPhysFrame_spec (f : Frames) :
    (∃ k < f.mmLimit, f.Free k ∧ (∀ k' < k, ¬f.Free k') ∧
        f.allocPhysFrame = .ok (k <<< 12, f.clr k 1)) ∨
      ((∀ k < f.mmLimit, ¬f.Free k) ∧ f.allocPhysFrame = .ok (noFrame, f)) := by
  obtain ⟨k, _, hlt, hk, hbefore, hret⟩ | ⟨hnone, hret⟩ :=
    f.allocPhysFrameFrom_spec (show 0 + f.mmLimit ≤ f.mmLimit by omega)
  · exact .inl ⟨k, by omega, hk, fun k' => hbefore k' (Nat.zero_le k'), hret⟩
  · exact .inr ⟨fun k hlt => hnone k (Nat.zero_le k) (by omega), hret⟩

theorem tests (f : Frames) : RunSearch.Tests f.tst f.Free (32 * physIndexMax) Fault.outOfBounds where
  unused i hi hfree := by rw [tst_inside hi, decide_eq_true hfree]
  used i hi hused := by rw [tst_inside hi, decide_eq_false hused]
  behind i hi := tst_outside (not_lt.mpr hi)

theorem firstUsed_eq : f.firstUsed i rounds j = RunSearch.firstUsed f.tst i rounds j := by
  induction rounds generalizing j with
  | zero => rfl
  | succ rounds ih =>
    rw [firstUsed, RunSearch.firstUsed, ih]

def claim (f : Frames) (count : Nat) : Option Nat → Nat × Frames
  | some k => (k <<< 12, f.clr k count)
  | none => (noFrame, f)

theorem allocPhysFramesFrom_eq : f.allocPhysFramesFrom count bound fuel i =
    f.claim count <$> RunSearch.search f.tst .diverges count bound fuel i := by
  induction fuel generalizing i with
  | zero => rfl
  | succ fuel ih =>
    rw [allocPhysFramesFrom, RunSearch.search, firstUsed_eq]
    split
    · cases RunSearch.firstUsed f.tst i count 0 with
      | error fault => rfl
      | ok used =>
        cases used with
        | none => rfl
        | some j => exact ih
    · rfl

def Blocked (f : Frames) (count i : Nat) : Prop :=
  ∃ u, i ≤ u ∧ u < i + count ∧ u < 32 * physIndexMax ∧ ¬f.Free u

def IsRun (f : Frames) (count i : Nat) : Prop :=
  i + count ≤ f.mmLimit ∧ ∀ j < count, f.Free (i + j)

/-- The lowest run is returned and becomes used, or there is none and nothing
happens. -/
def AllocatesLowest (f : Frames) (count : Nat) (result : Except Fault (Nat × Frames)) : Prop :=
  (∃ i f', f.IsRun count i ∧ (∀ i' < i, ¬f.IsRun count i') ∧ result = .ok (i <<< 12, f') ∧
      f'.mmLimit = f.mmLimit ∧ ∀ k, f'.Free k ↔ f.Free k ∧ ¬(i ≤ k ∧ k < i + count)) ∨
    ((∀ i, ¬f.IsRun count i) ∧ result = .ok (noFrame, f))

/-- The search bound does not wrap, or the wrapped search meets a used frame that
lies in every window it tries. -/
def SearchEnds (f : Frames) (count : Nat) : Prop :=
  count ≤ f.mmLimit + 1 ∨
    ∃ u < 32 * physIndexMax, 2 ^ 32 + f.mmLimit ≤ u + count ∧ ¬f.Free u

theorem searchBound_eq (h : count ≤ f.mmLimit + 1) (hpos : 1 ≤ count) :
    f.searchBound count = f.mmLimit + 1 - count := by
  have hlimit := f.mmLimit_le
  rw [tableBits_eq] at hlimit
  rw [searchBound]
  omega

theorem searchBound_wraps (h : ¬count ≤ f.mmLimit + 1) (hlt : count < 2 ^ 32) :
    f.searchBound count = f.mmLimit + 2 ^ 32 + 1 - count := by
  have hlimit := f.mmLimit_le
  rw [searchBound]
  omega

theorem not_isRun_of_blocked (h : f.Blocked count i) : ¬f.IsRun count i := by
  obtain ⟨u, hle, hlt, _, hused⟩ := h
  intro hrun
  have := hrun.2 (u - i) (by omega)
  rw [Nat.add_sub_cancel' hle] at this
  exact hused this

theorem allocPhysFrames_cases (f : Frames) (count : Nat) :
    (∃ k < f.searchBound count,
        (∀ j < count, k + j < 32 * physIndexMax ∧ f.Free (k + j)) ∧
        (∀ k' < k, f.Blocked count k') ∧
        f.allocPhysFrames count = .ok (k <<< 12, f.clr k count)) ∨
      ((∀ k < f.searchBound count, f.Blocked count k) ∧
        f.allocPhysFrames count = .ok (noFrame, f)) ∨
      (∃ k < f.searchBound count, 32 * physIndexMax < k + count ∧
        (∀ u, k ≤ u → u < 32 * physIndexMax → f.Free u) ∧
        f.allocPhysFrames count = .error .outOfBounds) := by
  rw [allocPhysFrames, allocPhysFramesFrom_eq]
  have hstart : ∀ i' < 0, f.Blocked count i' := fun i' hi' => absurd hi' (Nat.not_lt_zero i')
  obtain ⟨k, hk, hall, hbefore, hret⟩ | ⟨hnone, hret⟩ | ⟨k, hk, hout, hall, hret⟩ :=
    f.tests.search (Nat.succ_pos _)
      (show f.searchBound count < 0 + (f.searchBound count + 1) by omega) hstart
  · exact .inl ⟨k, hk, hall, hbefore, by rw [hret]; rfl⟩
  · exact .inr (.inl ⟨hnone, by rw [hret]; rfl⟩)
  · exact .inr (.inr ⟨k, hk, hout, hall, by rw [hret]; rfl⟩)

theorem allocPhysFrames_lowest (h : count ≤ f.mmLimit + 1) (hpos : 1 ≤ count) :
    f.AllocatesLowest count (f.allocPhysFrames count) := by
  have hlimit := f.mmLimit_le
  have hbound := searchBound_eq h hpos
  obtain ⟨k, hk, hall, hbefore, hret⟩ | ⟨hnone, hret⟩ | ⟨k, hk, hout, _, _⟩ :=
    f.allocPhysFrames_cases count
  · exact .inl ⟨k, _, ⟨by omega, fun j hj => (hall j hj).2⟩,
      fun k' hk' => not_isRun_of_blocked (hbefore k' hk'), hret, rfl, fun _ => free_clr⟩
  · refine .inr ⟨fun i hrun => ?_, hret⟩
    have hin : i < f.searchBound count := by
      have := hrun.1
      omega
    exact not_isRun_of_blocked (hnone i hin) hrun
  · omega

theorem allocPhysFrames_wraps (h : ¬count ≤ f.mmLimit + 1) (hlt : count < 2 ^ 32) :
    f.AllocatesLowest count (f.allocPhysFrames count) ↔
      ∃ u < 32 * physIndexMax, 2 ^ 32 + f.mmLimit ≤ u + count ∧ ¬f.Free u := by
  have htable := tableBits_eq
  have hbound := searchBound_wraps h hlt
  have hlong : ∀ i, ¬f.IsRun count i := fun i hrun => by
    have := hrun.1
    omega
  obtain ⟨k, hk, hall, hbefore, hret⟩ | ⟨hnone, hret⟩ | ⟨k, hk, hout, hall, hret⟩ :=
    f.allocPhysFrames_cases count
  · constructor
    · rintro (⟨i, _, hrun, _⟩ | ⟨_, hret'⟩)
      · exact absurd hrun (hlong i)
      · rw [hret] at hret'
        have : k <<< 12 = noFrame := by
          injection hret' with hpair
          exact (Prod.ext_iff.mp hpair).1
        rw [Nat.shiftLeft_eq, noFrame] at this
        omega
    · rintro ⟨u, hin, hle, hused⟩
      have hfree := (hall (u - k) (by omega)).2
      rw [Nat.add_sub_cancel' (by omega)] at hfree
      exact absurd hfree hused
  · constructor
    · intro _
      obtain ⟨u, hle, _, hin, hused⟩ := hnone (f.searchBound count - 1) (by omega)
      exact ⟨u, hin, by omega, hused⟩
    · exact fun _ => .inr ⟨hlong, hret⟩
  · constructor
    · rintro (⟨i, _, hrun, _⟩ | ⟨_, hret'⟩)
      · exact absurd hrun (hlong i)
      · rw [hret] at hret'
        cases hret'
    · rintro ⟨u, hin, hle, hused⟩
      exact absurd (hall u (by omega) hin) hused

theorem allocPhysFrames_iff (hpos : 1 ≤ count) (hlt : count < 2 ^ 32) :
    f.AllocatesLowest count (f.allocPhysFrames count) ↔ f.SearchEnds count := by
  by_cases h : count ≤ f.mmLimit + 1
  · exact iff_of_true (allocPhysFrames_lowest h hpos) (.inl h)
  · rw [allocPhysFrames_wraps h hlt, SearchEnds, or_iff_right h]

theorem allocPhysFramesFrom_one (hfuel : rounds < fuel) :
    f.allocPhysFramesFrom 1 (i + rounds) fuel i = f.allocPhysFrameFrom rounds i := by
  induction rounds generalizing i fuel with
  | zero =>
    cases fuel with
    | zero => omega
    | succ fuel => rw [allocPhysFramesFrom, if_neg (by omega), allocPhysFrameFrom]
  | succ rounds ih =>
    cases fuel with
    | zero => omega
    | succ fuel =>
      rw [allocPhysFramesFrom, if_pos (by omega), allocPhysFrameFrom, firstUsed, add_zero]
      cases hbit : f.tst i with
      | error fault => rfl
      | ok free =>
        rw [ok_bind, ok_bind]
        cases free with
        | true => rfl
        | false =>
          have := ih (i := i + 1) (show rounds < fuel by omega)
          rwa [add_right_comm, add_assoc] at this

theorem allocPhysFrames_one (f : Frames) : f.allocPhysFrames 1 = f.allocPhysFrame := by
  have hlimit := f.mmLimit_le
  rw [tableBits_eq] at hlimit
  have hbound : f.searchBound 1 = f.mmLimit := by
    rw [searchBound]
    omega
  rw [allocPhysFrames, hbound, allocPhysFrame]
  have := f.allocPhysFramesFrom_one (i := 0) (Nat.lt_succ_self f.mmLimit)
  rwa [zero_add] at this

def available (f : Frames) : Nat := ((Finset.range f.mmLimit).filter f.Free).card

theorem available_congr {f' : Frames} (hlimit : f'.mmLimit = f.mmLimit)
    (hfree : ∀ k, f'.Free k ↔ f.Free k) : f'.available = f.available := by
  rw [available, available, hlimit]
  congr 1
  apply Finset.filter_congr
  intro k _
  exact hfree k

theorem available_clr (hfree : f.Free k) (hlt : k < f.mmLimit) :
    (f.clr k 1).available + 1 = f.available := by
  have herase : (Finset.range (f.clr k 1).mmLimit).filter (f.clr k 1).Free =
      ((Finset.range f.mmLimit).filter f.Free).erase k := by
    ext i
    rw [Finset.mem_erase, Finset.mem_filter, Finset.mem_filter, free_clr]
    constructor
    · rintro ⟨hi, hfree', hne⟩
      exact ⟨by omega, hi, hfree'⟩
    · rintro ⟨hne, hi, hfree'⟩
      exact ⟨hi, hfree', by omega⟩
  rw [available, herase]
  apply Finset.card_erase_add_one
  exact Finset.mem_filter.mpr ⟨Finset.mem_range.mpr hlt, hfree⟩

structure Took (f f' : Frames) (taken : List Nat) : Prop where
  limit : f'.mmLimit = f.mmLimit
  free_iff : ∀ k, f'.Free k ↔ f.Free k ∧ k ∉ taken
  nodup : taken.Nodup
  free : ∀ k ∈ taken, f.Free k ∧ k < f.mmLimit

theorem Took.nil (f : Frames) : f.Took f [] := ⟨rfl, by simp, .nil, by simp⟩

theorem took_clr (hfree : f.Free k) (hlt : k < f.mmLimit) : f.Took (f.clr k 1) [k] := by
  refine ⟨rfl, fun i => ?_, nodup_singleton k, by simpa using ⟨hfree, hlt⟩⟩
  rw [free_clr, mem_singleton]
  apply and_congr_right'
  omega

theorem Took.append {f' f'' : Frames} {taken taken' : List Nat} (h : f.Took f' taken)
    (h' : f'.Took f'' taken') : f.Took f'' (taken ++ taken') := by
  refine ⟨h'.limit.trans h.limit, fun k => ?_, ?_, fun k hk => ?_⟩
  · rw [h'.free_iff, h.free_iff, mem_append, not_or, and_assoc]
  · apply List.Nodup.append h.nodup h'.nodup
    intro k hk hk'
    exact ((h.free_iff k).mp (h'.free k hk').1).2 hk
  · obtain hk | hk := mem_append.mp hk
    · exact h.free k hk
    · obtain ⟨hfree, hlt⟩ := h'.free k hk
      exact ⟨((h.free_iff k).mp hfree).1, h.limit ▸ hlt⟩

theorem Took.available {f' : Frames} {taken : List Nat} (h : f.Took f' taken) :
    f'.available + taken.length = f.available := by
  have hsplit : (Finset.range f.mmLimit).filter f.Free =
      (Finset.range f'.mmLimit).filter f'.Free ∪ taken.toFinset := by
    ext k
    rw [Finset.mem_union, Finset.mem_filter, Finset.mem_filter, mem_toFinset, h.free_iff,
      h.limit]
    constructor
    · rintro ⟨hlt, hfree⟩
      by_cases hk : k ∈ taken
      · exact .inr hk
      · exact .inl ⟨hlt, hfree, hk⟩
    · rintro (⟨hlt, hfree, _⟩ | hk)
      · exact ⟨hlt, hfree⟩
      · exact ⟨Finset.mem_range.mpr (h.free k hk).2, (h.free k hk).1⟩
  rw [Frames.available, Frames.available, hsplit, Finset.card_union_of_disjoint,
    toFinset_card_of_nodup h.nodup]
  apply Finset.disjoint_left.mpr
  intro k hk hk'
  rw [Finset.mem_filter, h.free_iff] at hk
  exact hk.2.2 (mem_toFinset.mp hk')

end Frames

def Covers (a : Nat × Nat) (k : Nat) : Prop := a.1 >>> 12 ≤ k ∧ k < a.1 >>> 12 + a.2

structure Pool where
  frames : Frames
  live : List (Nat × Nat)

inductive Call where
  | allocPhysFrame
  | allocPhysFrames (count : Nat)
  | freePhysFrame (frame : Nat)
  | freePhysFrames (frame count : Nat)

namespace Pool

open Frames

def record (p : Pool) (count : Nat) (result : Nat × Frames) : Pool :=
  if result.1 = noFrame then ⟨result.2, p.live⟩ else ⟨result.2, (result.1, count) :: p.live⟩

def step (p : Pool) : Call → Except Fault Pool
  | .allocPhysFrame => p.record 1 <$> p.frames.allocPhysFrame
  | .allocPhysFrames count => p.record count <$> p.frames.allocPhysFrames count
  | .freePhysFrame frame => .ok ⟨p.frames.freePhysFrame frame, p.live.erase (frame, 1)⟩
  | .freePhysFrames frame count =>
      (fun frames => ⟨frames, p.live.erase (frame, count)⟩) <$> p.frames.freePhysFrames frame count

/-- Only what was allocated is freed, as one piece. -/
def Allows (p : Pool) : Call → Prop
  | .allocPhysFrame => True
  | .allocPhysFrames count => 1 ≤ count ∧ count < 2 ^ 32 ∧ p.frames.SearchEnds count
  | .freePhysFrame frame => (frame, 1) ∈ p.live
  | .freePhysFrames frame count => (frame, count) ∈ p.live

/-- The free frames are those of the start without the live allocations, which
took free frames and do not overlap. -/
structure Accounts (f : Frames) (p : Pool) : Prop where
  limit : p.frames.mmLimit = f.mmLimit
  free_iff : ∀ k, p.frames.Free k ↔ f.Free k ∧ ∀ a ∈ p.live, ¬Covers a k
  inside : ∀ a ∈ p.live, a.1 >>> 12 + a.2 ≤ f.mmLimit
  taken : ∀ a ∈ p.live, ∀ k, Covers a k → f.Free k
  disjoint : p.live.Pairwise fun a b => ∀ k, Covers a k → ¬Covers b k

variable {f frames : Frames} {p : Pool} {a : Nat × Nat} {count : Nat}

theorem Accounts.alloc (h : p.Accounts f) {result : Except Fault (Nat × Frames)}
    (halloc : p.frames.AllocatesLowest count result) :
    ∃ r, result = .ok r ∧ (p.record count r).Accounts f := by
  obtain ⟨i, f', hrun, _, rfl, hlimit, hfree⟩ | ⟨_, rfl⟩ := halloc
  · refine ⟨_, rfl, ?_⟩
    have hne : i <<< 12 ≠ noFrame := by
      rw [Nat.shiftLeft_eq, noFrame]
      omega
    have hcovers : ∀ k, Covers (i <<< 12, count) k ↔ i ≤ k ∧ k < i + count := by
      intro k
      rw [Covers, Nat.shiftLeft_shiftRight]
    have hwas : ∀ k, Covers (i <<< 12, count) k → p.frames.Free k := by
      intro k hk
      obtain ⟨hle, hlt⟩ := (hcovers k).mp hk
      have := hrun.2 (k - i) (by omega)
      rwa [Nat.add_sub_cancel' hle] at this
    rw [record, if_neg hne]
    refine ⟨hlimit.trans h.limit, fun k => ?_, ?_, ?_, ?_⟩
    · rw [hfree, h.free_iff, ← hcovers]
      constructor
      · rintro ⟨⟨hk, hold⟩, hnew⟩
        exact ⟨hk, forall_mem_cons.mpr ⟨hnew, hold⟩⟩
      · rintro ⟨hk, hall⟩
        obtain ⟨hnew, hold⟩ := forall_mem_cons.mp hall
        exact ⟨⟨hk, hold⟩, hnew⟩
    · rw [forall_mem_cons]
      refine ⟨?_, h.inside⟩
      have hin := hrun.1
      rw [h.limit] at hin
      rwa [Nat.shiftLeft_shiftRight]
    · rw [forall_mem_cons]
      exact ⟨fun k hk => ((h.free_iff k).mp (hwas k hk)).1, h.taken⟩
    · apply pairwise_cons.mpr
      exact ⟨fun b hb k hk => ((h.free_iff k).mp (hwas k hk)).2 b hb, h.disjoint⟩
  · refine ⟨_, rfl, ?_⟩
    exact { h with }

theorem Accounts.free (h : p.Accounts f) (ha : a ∈ p.live) (hlimit : frames.mmLimit = f.mmLimit)
    (hfree : ∀ k, frames.Free k ↔ Covers a k ∨ p.frames.Free k) :
    Accounts f ⟨frames, p.live.erase a⟩ := by
  have hperm := perm_cons_erase ha
  have hapart : ∀ b ∈ p.live.erase a, ∀ k, Covers a k → ¬Covers b k := by
    have hsymm : ∀ {x y : Nat × Nat}, (∀ k, Covers x k → ¬Covers y k) →
        ∀ k, Covers y k → ¬Covers x k := fun hxy k hy hx => hxy k hx hy
    exact (pairwise_cons.mp ((hperm.pairwise_iff hsymm).mp h.disjoint)).1
  have hmem : ∀ b ∈ p.live.erase a, b ∈ p.live := fun b => mem_of_mem_erase
  refine ⟨hlimit, fun k => ?_, fun b hb => h.inside b (hmem b hb),
    fun b hb => h.taken b (hmem b hb), h.disjoint.sublist erase_sublist⟩
  rw [hfree, h.free_iff]
  constructor
  · rintro (hk | ⟨hk, hall⟩)
    · exact ⟨h.taken a ha k hk, fun b hb => hapart b hb k hk⟩
    · exact ⟨hk, fun b hb => hall b (hmem b hb)⟩
  · rintro ⟨hk, hall⟩
    by_cases hcov : Covers a k
    · exact .inl hcov
    · refine .inr ⟨hk, fun b hb => ?_⟩
      obtain rfl | hb := mem_cons.mp (hperm.mem_iff.mp hb)
      · exact hcov
      · exact hall b hb

theorem accounts_start (f : Frames) : Accounts f ⟨f, []⟩ :=
  ⟨rfl, fun k => by simp, by simp, by simp, .nil⟩

theorem Accounts.step (h : p.Accounts f) (c : Call) (hallow : p.Allows c) :
    ∃ p', p.step c = .ok p' ∧ p'.Accounts f := by
  cases c with
  | allocPhysFrame =>
    have halloc : p.frames.AllocatesLowest 1 (p.frames.allocPhysFrame) := by
      rw [← allocPhysFrames_one]
      exact allocPhysFrames_lowest (by omega) (le_refl 1)
    obtain ⟨r, hret, hr⟩ := h.alloc halloc
    exact ⟨_, map_eq_ok.mpr ⟨r, hret, rfl⟩, hr⟩
  | allocPhysFrames count =>
    obtain ⟨hpos, hlt, hends⟩ := hallow
    obtain ⟨r, hret, hr⟩ := h.alloc ((allocPhysFrames_iff hpos hlt).mpr hends)
    exact ⟨_, map_eq_ok.mpr ⟨r, hret, rfl⟩, hr⟩
  | freePhysFrame frame =>
    refine ⟨_, rfl, h.free hallow h.limit fun k => ?_⟩
    rw [free_freePhysFrame, Covers]
    apply or_congr_left
    omega
  | freePhysFrames frame count =>
    have hmem : (frame, count) ∈ p.live := hallow
    have hin := Nat.le_trans (h.inside _ hmem) f.mmLimit_le
    obtain ⟨f', hret, hlimit, hfree⟩ := p.frames.freePhysFrames_inside hin
    exact ⟨_, map_eq_ok.mpr ⟨_, hret, rfl⟩, h.free hmem (hlimit.trans h.limit) hfree⟩

theorem accounts_of_reaches (h : Reaches step Allows ⟨f, []⟩ p) : p.Accounts f := by
  apply h.invariant (Accounts f) (accounts_start f)
  intro p p' c hp hallow hok
  obtain ⟨next, hret, hnext⟩ := hp.step c hallow
  rw [hok, Except.ok.injEq] at hret
  exact hret ▸ hnext

end Pool

/-- The allocator keeps its contract for exactly those requests whose search ends in front of the
wrap of `mm_limit - count + 1` or inside the table. -/
theorem physical_frames_allocated (f : Frames) :
    (∀ count, 1 ≤ count → count < 2 ^ 32 →
      (f.AllocatesLowest count (f.allocPhysFrames count) ↔ f.SearchEnds count)) ∧
    f.allocPhysFrames 1 = f.allocPhysFrame ∧
    ∀ p, Reaches Pool.step Pool.Allows ⟨f, []⟩ p →
      p.Accounts f ∧ ∀ c, p.Allows c → ∃ p', p.step c = .ok p' := by
  refine ⟨fun count hpos hlt => Frames.allocPhysFrames_iff hpos hlt, f.allocPhysFrames_one,
    fun p hp => ?_⟩
  have haccounts := Pool.accounts_of_reaches hp
  refine ⟨haccounts, fun c hallows => ?_⟩
  obtain ⟨p', hret, _⟩ := haccounts.step c hallows
  exact ⟨p', hret⟩

def eightFrames : Frames := ⟨fun word => if word = 0 then 0xFD else 0, 8, by decide⟩

theorem physical_frames_allocated_eight :
    eightFrames.AllocatesLowest 3 (eightFrames.allocPhysFrames 3) ∧
    (eightFrames.allocPhysFrames 3).toOption.map Prod.fst = some 0x2000 ∧
    eightFrames.allocPhysFrames 1 = eightFrames.allocPhysFrame ∧
    Pool.Accounts eightFrames ⟨eightFrames, []⟩ := by
  obtain ⟨hiff, hone, hrun⟩ := physical_frames_allocated eightFrames
  exact ⟨(hiff 3 (by decide) (by decide)).mpr (.inl (by decide)), by decide +kernel, hone,
    (hrun _ .refl).1⟩

theorem not_free_eightFrames {k : Nat} (h : 8 ≤ k) : ¬eightFrames.Free k := by
  rw [Frames.Free, test_eq, eightFrames]
  dsimp only
  split
  · have hlt : k < 32 := by omega
    interval_cases k <;> decide
  · simp

theorem allocPhysFrames_ten_of_eight :
    eightFrames.allocPhysFrames 10 = .error .outOfBounds ∧
    ¬eightFrames.AllocatesLowest 10 (eightFrames.allocPhysFrames 10) := by
  have hret : eightFrames.allocPhysFrames 10 = .error .outOfBounds := by
    obtain ⟨k, _, hall, _⟩ | ⟨hnone, _⟩ | ⟨_, _, _, _, hret⟩ := eightFrames.allocPhysFrames_cases 10
    · exact absurd (hall 9 (by decide)).2 (not_free_eightFrames (by omega))
    · obtain ⟨u, hle, _, hin, _⟩ := hnone (2 ^ 20) (by decide)
      rw [tableBits_eq] at hin
      omega
    · exact hret
  refine ⟨hret, ?_⟩
  rw [hret]
  rintro (⟨_, _, _, _, h, _⟩ | ⟨_, h⟩)
  · cases h
  · cases h

end Quest.Mem
