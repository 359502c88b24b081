import Quest.Mem.Virtual

/-! Windows of several kernel pages, of `kernel/mem/virtual.c`. -/
namespace Quest.Mem.Machine

open Quest.Lib Memory

def readSlot (m : Machine) (i : Nat) : Except Fault Nat :=
  if i < 0x400 then .ok (m.slot i) else .error .outOfBounds

def writeSlot (m : Machine) (i value : Nat) : Except Fault Machine :=
  if i < 0x400 then .ok (m.setSlot i value) else .error .outOfBounds

def firstTaken (m : Machine) (i : Nat) : Nat → Nat → Except Fault (Option Nat)
  | 0, _ => .ok none
  | rounds + 1, j => do
    if (← m.readSlot (i + j)) = 0 then
      m.firstTaken i rounds (j + 1)
    else
      .ok (some j)

def freeWindowFrom (m : Machine) (count bound : Nat) : Nat → Nat → Except Fault (Option Nat)
  | 0, _ => .error .diverges
  | fuel + 1, i =>
    if i < bound then do
      if (← m.readSlot i) = 0 then
        match ← m.firstTaken i count 0 with
        | some j => m.freeWindowFrom count bound fuel (i + j + 1)
        | none => .ok (some i)
      else
        m.freeWindowFrom count bound fuel (i + 1)
    else
      .ok none

def windowBound (count : Nat) : Nat := (0x400 + 2 ^ 32 - count + 1) % 2 ^ 32

def fillWindow (frames : Nat → UInt32) (i : Nat) : Nat → Nat → Machine → Except Fault Machine
  | 0, _, m => .ok m
  | rounds + 1, j, m => do
    let m ← m.writeSlot (i + j) (frames j).toNat
    fillWindow frames i rounds (j + 1) m

/-- The body that `map_contiguous_virtual_pages` and `map_virtual_pages` have in common. -/
def mapWindow (m : Machine) (frames : Nat → UInt32) (count : Nat) : Except Fault (Nat × Machine) :=
  if count = 0 then
    .ok (0, m)
  else do
    match ← m.freeWindowFrom count (windowBound count) (windowBound count + 1) 0 with
    | some i => do
      let m ← fillWindow frames i count 0 m
      .ok (kernelStart + i <<< 12, m)
    | none => .ok (0, m)

def mapContiguousVirtualPages (m : Machine) (physFrame : UInt32) (count : Nat) :
    Except Fault (Nat × Machine) :=
  m.mapWindow (fun j => physFrame + UInt32.ofNat j * 0x1000) count

def mapVirtualPages (m : Machine) (physFrames : Nat → UInt32) (count : Nat) :
    Except Fault (Nat × Machine) :=
  m.mapWindow physFrames count

/-- `unmap_virtual_pages`, with the number of rounds left. -/
def unmapVirtualPagesFrom (virtAddr : Nat) : Nat → Nat → Machine → Machine
  | 0, _, m => m
  | rounds + 1, j, m =>
      unmapVirtualPagesFrom virtAddr rounds (j + 1) (m.unmapVirtualPage (virtAddr + j * 0x1000))

def unmapVirtualPages (m : Machine) (virtAddr count : Nat) : Machine :=
  unmapVirtualPagesFrom virtAddr count 0 m

def IsWindow (m : Machine) (count i : Nat) : Prop :=
  i + count ≤ 0x400 ∧ ∀ j < count, m.slot (i + j) = 0

structure Filled (m m' : Machine) (frames : Nat → UInt32) (i count : Nat) : Prop where
  entries : ∀ s < 0x400, m'.slot s = if i ≤ s ∧ s < i + count then (frames (s - i)).toNat else m.slot s
  mem : ∀ a, a / 4096 ≠ m.kernFrame → m'.mem a = m.mem a
  frames : m'.frames = m.frames
  pdFrame : m'.pdFrame = m.pdFrame
  kernFrame : m'.kernFrame = m.kernFrame

/-- The lowest window is filled, and `unmap_virtual_pages` undoes that; or there is none and
nothing happens. -/
def MapsLowest (m : Machine) (frames : Nat → UInt32) (count : Nat)
    (result : Except Fault (Nat × Machine)) : Prop :=
  (∃ i m', m.IsWindow count i ∧ (∀ i' < i, ¬m.IsWindow count i') ∧
      result = .ok (pageAddress i, m') ∧ m.Filled m' frames i count ∧
      m'.unmapVirtualPages (pageAddress i) count = m) ∨
    ((∀ i, ¬m.IsWindow count i) ∧ result = .ok (0, m))

variable {m m' : Machine} {frames : Nat → UInt32} {i j s count bound fuel rounds : Nat}

def tstSlot (m : Machine) (i : Nat) : Except Fault Bool := (fun e => decide (e = 0)) <$> m.readSlot i

theorem tests_slots (m : Machine) :
    RunSearch.Tests m.tstSlot (fun i => m.slot i = 0) 0x400 Fault.outOfBounds where
  unused i hi hfree := by
    rw [tstSlot, readSlot, if_pos hi, hfree]
    rfl
  used i hi hused := by
    rw [tstSlot, readSlot, if_pos hi]
    exact congrArg Except.ok (decide_eq_false hused)
  behind i hi := by
    rw [tstSlot, readSlot, if_neg (not_lt.mpr hi)]
    rfl

theorem firstTaken_eq : m.firstTaken i rounds j = RunSearch.firstUsed m.tstSlot i rounds j := by
  induction rounds generalizing j with
  | zero => rfl
  | succ rounds ih =>
    rw [firstTaken, RunSearch.firstUsed, tstSlot, ih]
    cases m.readSlot (i + j) with
    | error fault => rfl
    | ok e =>
      by_cases he : e = 0
      · simp [he, ok_bind]
      · simp [he, ok_bind]

theorem freeWindowFrom_eq (hpos : 1 ≤ count) :
    m.freeWindowFrom count bound fuel i =
      RunSearch.search m.tstSlot .diverges count bound fuel i := by
  induction fuel generalizing i with
  | zero => rfl
  | succ fuel ih =>
    obtain ⟨n, rfl⟩ := Nat.exists_eq_add_of_le' hpos
    rw [freeWindowFrom, RunSearch.search]
    split
    · rw [firstTaken_eq]
      cases hread : m.readSlot i with
      | error fault =>
        rw [RunSearch.firstUsed, add_zero, tstSlot, hread]
        rfl
      | ok e =>
        rw [ok_bind]
        by_cases he : e = 0
        · rw [if_pos he]
          cases RunSearch.firstUsed m.tstSlot i (n + 1) 0 with
          | error fault => rfl
          | ok taken =>
            cases taken with
            | none => rfl
            | some j => exact ih
        · have hused : RunSearch.firstUsed m.tstSlot i (n + 1) 0 = .ok (some 0) := by
            rw [RunSearch.firstUsed, add_zero, tstSlot, hread]
            simp [he, ok_bind]
          rw [if_neg he, hused]
          exact ih
    · rfl

theorem Filled.refl (m : Machine) (frames : Nat → UInt32) (i : Nat) : m.Filled m frames i 0 :=
  ⟨fun s _ => (if_neg (by omega)).symm, fun _ _ => rfl, rfl, rfl, rfl⟩

theorem fillWindow_spec (hin : i + j + rounds ≤ 0x400) (h : m.Filled m' frames i j) :
    ∃ m'', fillWindow frames i rounds j m' = .ok m'' ∧ m.Filled m'' frames i (j + rounds) := by
  induction rounds generalizing j m' with
  | zero => exact ⟨m', rfl, h⟩
  | succ rounds ih =>
    rw [fillWindow, writeSlot, if_pos (by omega), ok_bind]
    have hstep : m.Filled (m'.setSlot (i + j) (frames j).toNat) frames i (j + 1) := by
      refine ⟨fun s hs => ?_, fun a ha => ?_, h.frames, h.pdFrame, h.kernFrame⟩
      · rw [slot_setSlot (frames j).toNat_lt (by omega) hs]
        by_cases hlast : s = i + j
        · rw [if_pos hlast, if_pos (by omega), hlast, Nat.add_sub_cancel_left]
        · rw [if_neg hlast, h.entries s hs]
          exact if_congr (by omega) rfl rfl
      · rw [mem_setSlot (by omega) (h.kernFrame ▸ ha), h.mem a ha]
    obtain ⟨m'', hret, hfill⟩ := ih (by omega) hstep
    exact ⟨m'', hret, by rwa [show j + (rounds + 1) = j + 1 + rounds by omega]⟩

theorem unmapVirtualPagesFrom_spec (hin : i + j + rounds ≤ 0x400) :
    (∀ s < 0x400, (unmapVirtualPagesFrom (pageAddress i) rounds j m).slot s =
      if i + j ≤ s ∧ s < i + j + rounds then 0 else m.slot s) ∧
    (∀ a, a / 4096 ≠ m.kernFrame →
      (unmapVirtualPagesFrom (pageAddress i) rounds j m).mem a = m.mem a) ∧
    (unmapVirtualPagesFrom (pageAddress i) rounds j m).frames = m.frames ∧
    (unmapVirtualPagesFrom (pageAddress i) rounds j m).pdFrame = m.pdFrame ∧
    (unmapVirtualPagesFrom (pageAddress i) rounds j m).kernFrame = m.kernFrame := by
  induction rounds generalizing j m with
  | zero => exact ⟨fun s _ => (if_neg (by omega)).symm, fun _ _ => rfl, rfl, rfl, rfl⟩
  | succ rounds ih =>
    have haddr : pageAddress i + j * 0x1000 = pageAddress (i + j) := by
      rw [pageAddress, pageAddress]
      omega
    rw [unmapVirtualPagesFrom, haddr, unmapVirtualPage_page (by omega)]
    obtain ⟨hslot, hmem, hframes, hpd, hkern⟩ := ih (m := m.setSlot (i + j) 0) (j := j + 1) (by omega)
    refine ⟨fun s hs => ?_, fun a ha => ?_, hframes, hpd, hkern⟩
    · rw [hslot s hs, slot_setSlot (by decide) (by omega) hs]
      split
      · rw [if_pos (by omega)]
      · split
        · rw [if_pos (by omega)]
        · rw [if_neg (by omega)]
    · rw [hmem a ha, mem_setSlot (by omega) ha]

theorem Filled.unmap (h : m.Filled m' frames i count) (hwindow : m.IsWindow count i) :
    m'.unmapVirtualPages (pageAddress i) count = m := by
  obtain ⟨hinside, hfree⟩ := hwindow
  obtain ⟨hslot, hmem, hframes, hpd, hkern⟩ :=
    unmapVirtualPagesFrom_spec (m := m') (show i + 0 + count ≤ 0x400 by omega)
  apply eq_of_slots (hframes.trans h.frames) (hpd.trans h.pdFrame) (hkern.trans h.kernFrame)
  · intro s hs
    rw [hslot s hs]
    split
    · have hzero := hfree (s - i) (by omega)
      rwa [show i + (s - i) = s by omega, eq_comm] at hzero
    · rw [h.entries s hs, if_neg (by omega)]
  · intro a ha
    rw [hmem a (h.kernFrame ▸ ha), h.mem a ha]

theorem not_isWindow_of_blocked (h : RunSearch.Blocked (fun i => m.slot i = 0) 0x400 count i) :
    ¬m.IsWindow count i := by
  obtain ⟨u, hle, hlt, _, hused⟩ := h
  intro hwindow
  have hfree := hwindow.2 (u - i) (by omega)
  rw [Nat.add_sub_cancel' hle] at hfree
  exact hused hfree

theorem windowBound_eq (hpos : 1 ≤ count) (hle : count ≤ 1025) : windowBound count = 1025 - count := by
  rw [windowBound]
  omega

theorem windowBound_wraps (hlt : 1025 < count) (hcount : count < 2 ^ 32) :
    windowBound count = 2 ^ 32 + 1025 - count := by
  rw [windowBound]
  omega

theorem mapWindow_cases (m : Machine) (frames : Nat → UInt32) (hpos : 1 ≤ count) :
    (∃ k m', k < windowBound count ∧ m.IsWindow count k ∧ (∀ k' < k, ¬m.IsWindow count k') ∧
        m.mapWindow frames count = .ok (pageAddress k, m') ∧ m.Filled m' frames k count) ∨
      ((∀ k < windowBound count, RunSearch.Blocked (fun i => m.slot i = 0) 0x400 count k) ∧
        m.mapWindow frames count = .ok (0, m)) ∨
      (∃ k < windowBound count, 0x400 < k + count ∧
        m.mapWindow frames count = .error .outOfBounds) := by
  rw [mapWindow, if_neg (by omega), freeWindowFrom_eq hpos]
  have hstart : ∀ i' < 0, RunSearch.Blocked (fun i => m.slot i = 0) 0x400 count i' :=
    fun i' hi' => absurd hi' (Nat.not_lt_zero i')
  obtain ⟨k, hk, hall, hbefore, hret⟩ | ⟨hnone, hret⟩ | ⟨k, hk, hout, _, hret⟩ :=
    m.tests_slots.search (Nat.succ_pos _)
      (show windowBound count < 0 + (windowBound count + 1) by omega) hstart
  · have hlast := (hall (count - 1) (by omega)).1
    obtain ⟨m', hfill, hfilled⟩ :=
      fillWindow_spec (show k + 0 + count ≤ 0x400 by omega) (Filled.refl m frames k)
    rw [zero_add] at hfilled
    refine .inl ⟨k, m', hk, ⟨by omega, fun j hj => (hall j hj).2⟩,
      fun k' hk' => not_isWindow_of_blocked (hbefore k' hk'), ?_, hfilled⟩
    rw [hret, ok_bind]
    dsimp only
    rw [hfill, ok_bind, Nat.shiftLeft_eq, pageAddress]
  · exact .inr (.inl ⟨hnone, by rw [hret]; rfl⟩)
  · exact .inr (.inr ⟨k, hk, hout, by rw [hret]; rfl⟩)

theorem mapWindow_lowest (hpos : 1 ≤ count) (hle : count ≤ 1025) :
    m.MapsLowest frames count (m.mapWindow frames count) := by
  have hbound := windowBound_eq hpos hle
  obtain ⟨k, m', _, hwindow, hlowest, hret, hfill⟩ | ⟨hnone, hret⟩ | ⟨k, hk, hout, _⟩ :=
    m.mapWindow_cases frames hpos
  · exact .inl ⟨k, m', hwindow, hlowest, hret, hfill, hfill.unmap hwindow⟩
  · refine .inr ⟨fun i hwindow => ?_, hret⟩
    have hin := hwindow.1
    exact not_isWindow_of_blocked (hnone i (by omega)) hwindow
  · omega

/-- With a wrapped bound the search always runs behind the table: no window is that long, and
none of the 1024 entries ends it. -/
theorem mapWindow_outside (m : Machine) (frames : Nat → UInt32) (hlt : 1025 < count)
    (hcount : count < 2 ^ 32) : m.mapWindow frames count = .error .outOfBounds := by
  have hbound := windowBound_wraps hlt hcount
  obtain ⟨k, m', _, hwindow, _⟩ | ⟨hnone, _⟩ | ⟨_, _, _, hret⟩ :=
    m.mapWindow_cases frames (show 1 ≤ count by omega)
  · have hin := hwindow.1
    omega
  · obtain ⟨u, hle, _, hin, _⟩ := hnone 0x400 (by omega)
    omega
  · exact hret

theorem mapWindow_iff (m : Machine) (frames : Nat → UInt32) (hpos : 1 ≤ count)
    (hcount : count < 2 ^ 32) :
    m.MapsLowest frames count (m.mapWindow frames count) ↔ count ≤ 1025 := by
  constructor
  · intro h
    by_contra hlt
    rw [mapWindow_outside m frames (by omega) hcount] at h
    obtain ⟨_, _, _, _, hret, _⟩ | ⟨_, hret⟩ := h
    · cases hret
    · cases hret
  · exact mapWindow_lowest hpos

/-- Both functions map at the lowest window, or say that there is none, for exactly the counts
for which the bound of the search does not wrap. -/
theorem kernel_windows_mapped_iff (m : Machine) (physFrame : UInt32) (physFrames : Nat → UInt32)
    (count : Nat) (hpos : 1 ≤ count) (hcount : count < 2 ^ 32) :
    (m.MapsLowest (fun j => physFrame + UInt32.ofNat j * 0x1000) count
      (m.mapContiguousVirtualPages physFrame count) ↔ count ≤ 1025) ∧
    (m.MapsLowest physFrames count (m.mapVirtualPages physFrames count) ↔ count ≤ 1025) :=
  ⟨m.mapWindow_iff _ hpos hcount, m.mapWindow_iff _ hpos hcount⟩

def unmapped : Machine := ⟨⟨fun _ => 0, 0, no_limit_le⟩, fun _ => 0, 2, 1⟩

theorem kernel_windows_mapped_iff_unmapped :
    (unmapped.MapsLowest (fun j => 3 + UInt32.ofNat j * 0x1000) 2
      (unmapped.mapContiguousVirtualPages 3 2) ↔ 2 ≤ 1025) ∧
    (unmapped.MapsLowest (fun _ => 3) 2 (unmapped.mapVirtualPages (fun _ => 3) 2) ↔ 2 ≤ 1025) :=
  kernel_windows_mapped_iff unmapped 3 (fun _ => 3) 2 (by decide) (by decide)

theorem kernel_window_leaves_table :
    unmapped.mapContiguousVirtualPages 3 1026 = .error .outOfBounds ∧
    unmapped.mapVirtualPages (fun _ => 3) 1026 = .error .outOfBounds ∧
    ∀ i, ¬unmapped.IsWindow 1026 i :=
  ⟨mapWindow_outside _ _ (by decide) (by decide), mapWindow_outside _ _ (by decide) (by decide),
    fun _ hwindow => absurd hwindow.1 (by omega)⟩

end Quest.Mem.Machine
