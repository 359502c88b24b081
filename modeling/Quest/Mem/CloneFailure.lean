import Quest.Mem.Clone

/-! What a clone leaves behind when it runs out of frames or of kernel pages. -/
namespace Quest.Mem.Machine

open Quest.Lib Memory List

variable {m m' : Machine} {so t t' k i j rounds s f count : Nat} {done : Bool}

/-! No call frees a frame that was in use when it began, whatever else it does. -/

variable {va : Nat}

theorem store8_frames {byte : UInt8} (h : m.store8 va byte = .ok m') : m'.frames = m.frames := by
  obtain ⟨a, -, rfl⟩ := map_eq_ok.mp h
  rfl

theorem storeBytes_frames {bytes : Nat → UInt8} (h : m.storeBytes va bytes count = .ok m')
    : m'.frames = m.frames := by
  induction count generalizing m' with
  | zero => exact congrArg frames (Except.ok.inj h).symm
  | succ count ih =>
    obtain ⟨m1, hbytes, hbyte⟩ := bind_eq_ok.mp h
    rw [store8_frames hbyte, ih hbytes]

theorem memcpy_frames {dst src : Nat} (h : m.memcpy dst src count = .ok m') :
    m'.frames = m.frames := by
  induction count generalizing m' with
  | zero => exact congrArg frames (Except.ok.inj h).symm
  | succ count ih =>
    obtain ⟨m1, hbytes, hrest⟩ := bind_eq_ok.mp h
    obtain ⟨byte, -, hbyte⟩ := bind_eq_ok.mp hrest
    rw [store8_frames hbyte, ih hbytes]

theorem storeEntry_frames {flags framenum : Nat} (h : m.storeEntry va flags framenum = .ok m') :
    m'.frames = m.frames := by
  obtain ⟨m1, hflags, hframenum⟩ := bind_eq_ok.mp h
  obtain ⟨e, -, hstore⟩ := bind_eq_ok.mp hflags
  obtain ⟨e', -, hstore'⟩ := bind_eq_ok.mp hframenum
  rw [storeBytes_frames hstore', storeBytes_frames hstore]

@[simp] theorem unmapVirtualPage_frames : (m.unmapVirtualPage va).frames = m.frames := rfl

theorem freeSlotFrom_none (h : ∀ s, i ≤ s → s < i + rounds → m.slot s ≠ 0) :
    m.freeSlotFrom rounds i = none := by
  induction rounds generalizing i with
  | zero => rfl
  | succ rounds ih =>
    rw [freeSlotFrom, if_neg (h i (le_refl i) (by omega))]
    exact ih fun s hle hlt => h s (by omega) (by omega)

theorem mapVirtualPage_none (physFrame : Nat) (h : m.freeSlots.card = 0) :
    m.mapVirtualPage physFrame = (0, m) := by
  have hnone : m.freeSlotFrom 0x400 0 = none := by
    apply freeSlotFrom_none
    intro s _ hs hzero
    have hmem := mem_freeSlots.mpr ⟨by omega, hzero⟩
    rw [Finset.card_eq_zero.mp h] at hmem
    exact absurd hmem (Finset.notMem_empty s)
  rw [mapVirtualPage, hnone]

theorem allocPhysFrame_none (h : m.frames.available = 0) :
    m.allocPhysFrame = .ok (noFrame, m) := by
  obtain ⟨k, hlt, hfree, _⟩ | ⟨_, hret⟩ := m.frames.allocPhysFrame_spec
  · have hmem := Finset.mem_filter.mpr ⟨Finset.mem_range.mpr hlt, hfree⟩
    rw [Finset.card_eq_zero.mp h] at hmem
    exact absurd hmem (Finset.notMem_empty k)
  · rw [allocPhysFrame, hret]
    rfl

variable {frame : Nat}

section

variable (h : m.allocPhysFrame = .ok (frame, m'))
include h

theorem allocPhysFrame_cases :
    (m.frames.available = 0 ∧ frame = noFrame ∧ m' = m) ∨
      ∃ k, m.frames.Free k ∧ k < m.frames.mmLimit ∧ frame = k <<< 12 ∧
        m' = m.setFrames (m.frames.clr k 1) := by
  rcases Nat.eq_zero_or_pos m.frames.available with hnone | havail
  · rw [allocPhysFrame_none hnone, Except.ok.injEq, Prod.mk.injEq] at h
    exact .inl ⟨hnone, h.1.symm, h.2.symm⟩
  · obtain ⟨k, hfree, hlt, halloc⟩ := allocPhysFrame_available havail
    rw [halloc, Except.ok.injEq, Prod.mk.injEq] at h
    exact .inr ⟨k, hfree, hlt, h.1.symm, h.2.symm⟩

theorem allocPhysFrame_free (hfree : m'.frames.Free f)
    : m.frames.Free f := by
  rcases allocPhysFrame_cases h with ⟨-, -, rfl⟩ | ⟨k, -, -, -, rfl⟩
  · exact hfree
  · exact (Frames.free_clr.mp hfree).1

end

theorem load32_lt {e : Nat} (h : m.load32 va = .ok e) : e < 2 ^ 32 := by
  obtain ⟨byte0, -, h⟩ := bind_eq_ok.mp h
  obtain ⟨byte1, -, h⟩ := bind_eq_ok.mp h
  obtain ⟨byte2, -, h⟩ := bind_eq_ok.mp h
  obtain ⟨byte3, -, h⟩ := bind_eq_ok.mp h
  rw [← Except.ok.inj h]
  have h0 := byte0.toNat_lt
  have h1 := byte1.toNat_lt
  have h2 := byte2.toNat_lt
  have h3 := byte3.toNat_lt
  omega

theorem or_three_ne_zero (n : Nat) : n ||| 3 ≠ 0 := by
  intro h
  exact absurd (Nat.or_eq_zero_iff.mp h).2 (by decide)

theorem card_freeSlots_setSlot {value : Nat} (hs : s ∈ m.freeSlots) (hv : value < 2 ^ 32)
    (hne : value ≠ 0) : (m.setSlot s value).freeSlots.card + 1 = m.freeSlots.card := by
  rw [freeSlots_setSlot (mem_freeSlots.mp hs).1 hv hne, Finset.card_erase_add_one hs]

theorem two_le_freeSlots {a b : Nat} (ha : a < 1024) (hb : b < 1024) (hne : b ≠ a) :
    2 ≤ ((m.setSlot a 0).setSlot b 0).freeSlots.card := by
  have hsub : {a, b} ⊆ ((m.setSlot a 0).setSlot b 0).freeSlots := by
    intro s hs
    rw [Finset.mem_insert, Finset.mem_singleton] at hs
    rw [mem_freeSlots]
    rcases hs with rfl | rfl
    · rw [slot_setSlot (by omega) hb ha, if_neg hne.symm, slot_setSlot (by omega) ha ha, if_pos rfl]
      exact ⟨ha, rfl⟩
    · rw [slot_setSlot (by omega) hb hb, if_pos rfl]
      exact ⟨hb, rfl⟩
  rw [← Finset.card_pair hne.symm]
  exact Finset.card_le_card hsub

variable {oldVa newVa : Nat}

theorem cloneEntries_cases (h : cloneEntries oldVa newVa (rounds + 1) i m = .ok (done, m')) :
    ∃ e, m.load32 (oldVa + 4 * i) = .ok e ∧
      ((¬Present e ∧ cloneEntries oldVa newVa rounds (i + 1) m = .ok (done, m')) ∨
        Present e ∧ ∃ newFrame m1, m.allocPhysFrame = .ok (newFrame, m1) ∧
          ((m.freeSlots.card < 2 ∧ done = false ∧ m'.frames = m1.frames) ∨
            ∃ m2, m2.frames = m1.frames ∧ 2 ≤ m2.freeSlots.card ∧
              cloneEntries oldVa newVa rounds (i + 1) m2 = .ok (done, m'))) := by
  rw [cloneEntries] at h
  obtain ⟨e, he, h⟩ := bind_eq_ok.mp h
  refine ⟨e, he, ?_⟩
  split at h
  · rename_i hpres
    refine .inr ⟨hpres, ?_⟩
    obtain ⟨⟨newFrame, m1⟩, halloc, h⟩ := bind_eq_ok.mp h
    refine ⟨newFrame, m1, halloc, ?_⟩
    have hslots : m1.freeSlots = m.freeSlots := by
      rcases allocPhysFrame_cases halloc with ⟨-, -, rfl⟩ | ⟨k, -, -, -, rfl⟩
      · rfl
      · rfl
    have he32 := load32_lt he
    have hold : (e / 4096) <<< 12 ||| 3 < 2 ^ 32 := by
      rw [or_three]
      omega
    rw [← hslots]
    dsimp only at h
    rcases Nat.eq_zero_or_pos m1.freeSlots.card with hnone | hsome
    · rw [mapVirtualPage_none _ hnone] at h
      rw [if_pos rfl, Except.ok.injEq, Prod.mk.injEq] at h
      exact .inl ⟨by omega, h.1.symm, congrArg frames h.2.symm⟩
    obtain ⟨a, ha, hmapa⟩ := m1.mapVirtualPage_spec ((e / 4096) <<< 12 ||| 3) hsome
    rw [hmapa] at h
    rw [if_neg (pageAddress_ne_null a)] at h
    have hcard := card_freeSlots_setSlot ha hold (or_three_ne_zero _)
    rcases Nat.eq_zero_or_pos (m1.setSlot a ((e / 4096) <<< 12 ||| 3)).freeSlots.card with
      hnone | hsome
    · rw [mapVirtualPage_none _ hnone] at h
      rw [if_pos rfl, Except.ok.injEq, Prod.mk.injEq] at h
      refine .inl ⟨by omega, h.1.symm, ?_⟩
      rw [← h.2, unmapVirtualPage_frames, setSlot_frames]
    obtain ⟨b, hb, hmapb⟩ := Machine.mapVirtualPage_spec (newFrame ||| 3) hsome
    rw [hmapb] at h
    rw [if_neg (pageAddress_ne_null b)] at h
    have ha' := (mem_freeSlots.mp ha).1
    have hb' := (mem_freeSlots.mp hb).1
    have hne : b ≠ a := by
      rintro rfl
      have hzero := (mem_freeSlots.mp hb).2
      rw [slot_setSlot hold ha' ha', if_pos rfl] at hzero
      exact or_three_ne_zero _ hzero
    obtain ⟨m3, hcopy, h⟩ := bind_eq_ok.mp h
    obtain ⟨flags, -, h⟩ := bind_eq_ok.mp h
    obtain ⟨m4, hentry, h⟩ := bind_eq_ok.mp h
    rw [unmapVirtualPage_page ha', unmapVirtualPage_page hb'] at h
    refine .inr ⟨_, ?_, two_le_freeSlots ha' hb' hne, h⟩
    rw [setSlot_frames, setSlot_frames, storeEntry_frames hentry, memcpy_frames hcopy,
      setSlot_frames, setSlot_frames]
  · rename_i hout
    exact .inl ⟨hout, h⟩

theorem cloneEntries_free (h : cloneEntries oldVa newVa rounds i m = .ok (done, m'))
    (hfree : m'.frames.Free f) : m.frames.Free f := by
  induction rounds generalizing i m with
  | zero =>
    cases h
    exact hfree
  | succ rounds ih =>
    obtain ⟨e, -, ⟨-, hrest⟩ | ⟨-, newFrame, m1, halloc, hround⟩⟩ := cloneEntries_cases h
    · exact ih hrest
    · apply allocPhysFrame_free halloc
      rcases hround with ⟨-, -, hframes⟩ | ⟨m2, hframes, -, hrest⟩
      · rwa [← hframes]
      · rw [← hframes]
        exact ih hrest

theorem cloneEntries_done (h : cloneEntries oldVa newVa rounds i m = .ok (done, m'))
    (hslots : 2 ≤ m.freeSlots.card) : done = true := by
  induction rounds generalizing i m with
  | zero => exact (Prod.mk.inj (Except.ok.inj h)).1.symm
  | succ rounds ih =>
    obtain ⟨e, -, ⟨-, hrest⟩ | ⟨-, newFrame, m1, -, hround⟩⟩ := cloneEntries_cases h
    · exact ih hrest hslots
    · rcases hround with ⟨hfew, -⟩ | ⟨m2, -, hslots2, hrest⟩
      · omega
      · exact ih hrest hslots2

theorem mapVirtualPage_frames (m : Machine) (physFrame : Nat) :
    (m.mapVirtualPage physFrame).2.frames = m.frames := by
  unfold mapVirtualPage
  split <;> rfl

theorem clonePageTable_free {tbl r : Pgtbl} (h : m.clonePageTable tbl = .ok (r, m'))
    (hfree : m'.frames.Free f) : m.frames.Free f := by
  obtain ⟨⟨tablePa, m1⟩, halloc, h⟩ := bind_eq_ok.mp h
  dsimp only at h
  split at h
  · cases h
    exact allocPhysFrame_free halloc hfree
  rename_i hframe
  -- The frame that is given back on failure was free before.
  obtain ⟨k, hk, -, rfl, -⟩ := (allocPhysFrame_cases halloc).resolve_left fun hnone =>
    hframe hnone.2.1
  have hback : ∀ {frames : Frames}, (frames.Free f → m1.frames.Free f) →
      (frames.freePhysFrame (k <<< 12)).Free f → m.frames.Free f := by
    intro frames hless hfree
    rcases Frames.free_freePhysFrame.mp hfree with heq | hfree
    · rw [Nat.shiftLeft_shiftRight] at heq
      exact heq ▸ hk
    · exact allocPhysFrame_free halloc (hless hfree)
  have hmap := m1.mapVirtualPage_frames (k <<< 12 ||| 3)
  split at h
  · cases h
    exact hback (fun hfree => hmap ▸ hfree) hfree
  obtain ⟨m2, hmemset, h⟩ := bind_eq_ok.mp h
  obtain ⟨⟨done, m3⟩, hentries, h⟩ := bind_eq_ok.mp h
  have hless : m3.frames.Free f → m1.frames.Free f := by
    intro hfree
    have hfree2 := cloneEntries_free hentries hfree
    rwa [storeBytes_frames hmemset, hmap] at hfree2
  split at h
  · cases h
    exact allocPhysFrame_free halloc (hless hfree)
  · cases h
    exact hback hless hfree

theorem cloneTables_free {dirVa : Nat} (h : cloneTables dirVa newVa rounds i m = .ok (done, m'))
    (hfree : m'.frames.Free f) : m.frames.Free f := by
  induction rounds generalizing i m with
  | zero =>
    cases h
    exact hfree
  | succ rounds ih =>
    obtain ⟨e, -, h⟩ := bind_eq_ok.mp h
    split at h
    · split at h
      · obtain ⟨m1, hstore, h⟩ := bind_eq_ok.mp h
        rw [← storeBytes_frames hstore]
        exact ih h
      split at h
      · cases h
      have hmap := m.mapVirtualPage_frames ((e / 4096) <<< 12 ||| 3)
      dsimp only at h
      rw [← hmap]
      split at h
      · cases h
        exact hfree
      obtain ⟨⟨newTbl, m1⟩, hclone, h⟩ := bind_eq_ok.mp h
      apply clonePageTable_free hclone
      split at h
      · cases h
        exact hfree
      obtain ⟨flags, -, h⟩ := bind_eq_ok.mp h
      obtain ⟨m2, hentry, h⟩ := bind_eq_ok.mp h
      have hfree2 := ih h
      rwa [storeEntry_frames hentry] at hfree2
    · exact ih h

/-- The bitmap of the frames and the kernel's page table are as they were. -/
structure Undone (m m' : Machine) : Prop where
  frames : ∀ k, m'.frames.Free k ↔ m.frames.Free k
  slots : ∀ s < 1024, m'.slot s = m.slot s

theorem Undone.refl (m : Machine) : m.Undone m := ⟨fun _ => Iff.rfl, fun _ _ => rfl⟩

theorem Undone.unmap {value : Nat} (h : (m.setSlot s value).Undone m') (hs : s ∈ m.freeSlots)
    (hv : value < 2 ^ 32) : m.Undone (m'.unmapVirtualPage (pageAddress s)) := by
  obtain ⟨hs', hzero⟩ := mem_freeSlots.mp hs
  rw [unmapVirtualPage_page hs']
  refine ⟨h.frames, fun i hi => ?_⟩
  rw [slot_setSlot (by omega) hs' hi, h.slots i hi, slot_setSlot hv hs' hi]
  split
  · rename_i heq
    rw [heq, hzero]
  · rfl

theorem free_given_back {frames frames' : Frames} (hfree : frames.Free k)
    (h : ∀ f, frames'.Free f ↔ (frames.clr k 1).Free f) (f : Nat) :
    (frames'.freePhysFrame (k <<< 12)).Free f ↔ frames.Free f := by
  rw [Frames.free_freePhysFrame, h, Frames.free_clr, Nat.shiftLeft_shiftRight]
  constructor
  · rintro (rfl | ⟨hf, -⟩)
    · exact hfree
    · exact hf
  · intro hf
    by_cases heq : k = f
    · exact .inl heq
    · exact .inr ⟨hf, by omega⟩

theorem undone_page {m1 : Machine} (hfree : m.frames.Free k) (hs : s ∈ m.freeSlots)
    (hframes : ∀ f, m1.frames.Free f ↔ (m.frames.clr k 1).Free f)
    (hslots : ∀ i < 1024, m1.slot i = if i = s then k * 4096 + 3 else m.slot i)
    (h : m1.Undone m') :
    m.Undone ((m'.unmapVirtualPage (pageAddress s)).freePhysFrame (k <<< 12)) := by
  obtain ⟨hs', hzero⟩ := mem_freeSlots.mp hs
  rw [unmapVirtualPage_page hs']
  constructor
  · apply free_given_back hfree
    intro f
    rw [setSlot_frames, h.frames, hframes]
  · intro i hi
    rw [freePhysFrame, setFrames_slot, slot_setSlot (by omega) hs' hi, h.slots i hi, hslots i hi]
    split
    · rename_i heq
      rw [heq, hzero]
    · rfl

theorem undone_clr (hfree : m.frames.Free k) :
    m.Undone ((m.setFrames (m.frames.clr k 1)).freePhysFrame (k <<< 12)) :=
  ⟨free_given_back hfree fun _ => Iff.rfl, fun _ _ => rfl⟩

theorem cloneEntries_skip (newVa rounds : Nat) {n : Nat} (hold : m.Maps so t) (hbound : i + n ≤ 1024)
    (hout : ∀ j, i ≤ j → j < i + n → ¬Present (entry m.mem t j)) :
    cloneEntries (pageAddress so) newVa (n + rounds) i m =
      cloneEntries (pageAddress so) newVa rounds (i + n) m := by
  induction n generalizing i with
  | zero => rw [zero_add, add_zero]
  | succ n ih =>
    rw [Nat.succ_add, cloneEntries, load32_page hold (by omega), ok_bind,
      if_neg (hout i (le_refl i) (by omega)), ih (by omega) fun j hle hlt =>
        hout j (by omega) (by omega), add_assoc, add_comm 1 n]

theorem cloneEntries_first (newVa : Nat) (hold : m.Maps so t) (hj : j < 1024)
    (hout : ∀ i < j, ¬Present (entry m.mem t i)) :
    cloneEntries (pageAddress so) newVa 0x400 0 m =
      cloneEntries (pageAddress so) newVa (1023 - j + 1) j m := by
  have hskip := cloneEntries_skip newVa (1023 - j + 1) (i := 0) (n := j) hold (by omega)
    fun i _ hi => hout i (by omega)
  rw [zero_add, show j + (1023 - j + 1) = 0x400 by omega] at hskip
  exact hskip

theorem first_present (h : ∃ j < 1024, Present (entry m.mem t j)) :
    ∃ j < 1024, Present (entry m.mem t j) ∧ ∀ i < j, ¬Present (entry m.mem t i) := by
  have hex : ∃ j, j < 1024 ∧ Present (entry m.mem t j) := by simpa using h
  obtain ⟨hj, hpres⟩ := Nat.find_spec hex
  exact ⟨Nat.find hex, hj, hpres, fun i hi hpres' =>
    Nat.find_min hex hi ⟨by omega, hpres'⟩⟩

theorem cloneEntries_stops (newVa rounds : Nat) (hold : m.Maps so t) (hj : j < 1024)
    (hpres : Present (entry m.mem t j)) (hframes : m.frames.available = 0)
    (hslots : m.freeSlots.card < 2) :
    ∃ m', cloneEntries (pageAddress so) newVa (rounds + 1) j m = .ok (false, m') ∧ m.Undone m' := by
  have he := entry_lt m.mem t j
  have hvalue : (entry m.mem t j / 4096) <<< 12 ||| 3 < 2 ^ 32 := by
    rw [or_three]
    omega
  rw [cloneEntries, load32_page hold hj, ok_bind, if_pos hpres, allocPhysFrame_none hframes,
    ok_bind]
  dsimp only
  rcases Nat.eq_zero_or_pos m.freeSlots.card with hnone | hsome
  · rw [mapVirtualPage_none _ hnone]
    exact ⟨m, rfl, .refl m⟩
  · obtain ⟨a, ha, hmap⟩ := m.mapVirtualPage_spec ((entry m.mem t j / 4096) <<< 12 ||| 3) hsome
    have hcard := card_freeSlots_setSlot ha hvalue (or_three_ne_zero _)
    rw [hmap]
    dsimp only
    rw [if_neg (pageAddress_ne_null a), mapVirtualPage_none _ (by omega)]
    exact ⟨_, rfl, (Undone.refl _).unmap ha hvalue⟩

theorem cloneEntries_taken (hold : m.Maps so t) (hj : j < 1024)
    (hpres : Present (entry m.mem t j)) (havail : 0 < m.frames.available)
    (h : cloneEntries (pageAddress so) newVa (rounds + 1) j m = .ok (done, m')) :
    ∃ k, m.frames.Free k ∧ ¬m'.frames.Free k := by
  obtain ⟨e, he, hround⟩ := cloneEntries_cases h
  rw [load32_page hold hj, Except.ok.injEq] at he
  obtain ⟨-, newFrame, m1, halloc, hround⟩ := hround.resolve_left fun hout =>
    hout.1 (he ▸ hpres)
  obtain ⟨k, hfree, -, -, rfl⟩ := (allocPhysFrame_cases halloc).resolve_left fun hnone => by omega
  have hused : ¬(m.frames.clr k 1).Free k := fun hfree' =>
    (Frames.free_clr.mp hfree').2 (by omega)
  refine ⟨k, hfree, fun hfree' => hused ?_⟩
  rcases hround with ⟨-, -, hframes⟩ | ⟨m2, hframes, -, hrest⟩
  · rwa [hframes] at hfree'
  · have hfree2 := cloneEntries_free hrest hfree'
    rwa [hframes] at hfree2

theorem clonePageTable_undone (tablePa : Nat) (hold : m.Maps so t) (ht : m.Owned t)
    (hkern : ¬m.frames.Free m.kernFrame)
    (hearly : m.frames.available = 0 ∨ m.freeSlots.card = 0 ∨
      m.frames.available = 1 ∧ m.freeSlots.card < 3 ∧ ∃ j < 1024, Present (entry m.mem t j)) :
    ∃ m', m.clonePageTable ⟨tablePa, pageAddress so⟩ = .ok (⟨noFrame, 0⟩, m') ∧ m.Undone m' := by
  rw [clonePageTable]
  rcases Nat.eq_zero_or_pos m.frames.available with hnone | havail
  · rw [allocPhysFrame_none hnone, ok_bind]
    exact ⟨m, rfl, .refl m⟩
  rcases Nat.eq_zero_or_pos m.freeSlots.card with hfull | hsome
  · obtain ⟨k, hfree, -, halloc⟩ := allocPhysFrame_available havail
    rw [halloc, ok_bind]
    dsimp only
    rw [if_neg (shiftLeft_ne_noFrame k), mapVirtualPage_none _ (by simpa using hfull)]
    exact ⟨_, rfl, undone_clr hfree⟩
  obtain ⟨hone, hslots, hex⟩ := (hearly.resolve_left (by omega)).resolve_left (by omega)
  obtain ⟨j, hj, hpres, hout⟩ := first_present hex
  obtain ⟨t', sn, m0, m1, halloc, hmap, hmemset, hnew⟩ := newPage_spec hkern havail hsome
  have hentry : ∀ i < 1024, entry m1.mem t i = entry m.mem t i := fun i => hnew.entry_eq ht
  have hold1 := hnew.keeps hold
  have havail1 := hnew.available
  have hcard1 := hnew.card_freeSlots
  obtain ⟨m2, hstops, hundo⟩ := cloneEntries_stops (pageAddress sn) (1023 - j) hold1 hj (hentry j hj ▸ hpres) (by omega) (by omega)
  have hentries := cloneEntries_first (pageAddress sn) hold1 hj fun i hi =>
    hentry i (by omega) ▸ hout i hi
  rw [halloc, ok_bind]
  dsimp only
  rw [if_neg (shiftLeft_ne_noFrame t'), hmap]
  rw [if_neg (pageAddress_ne_null sn), hmemset, ok_bind, hentries, hstops, ok_bind]
  refine ⟨_, rfl, undone_page hnew.free hnew.slotFree ?_ hnew.slots hundo⟩
  exact fun f => by rw [hnew.frames]

theorem clonePageTable_taken {tablePa : Nat} {r : Pgtbl} (hold : m.Maps so t) (ht : m.Owned t)
    (hkern : ¬m.frames.Free m.kernFrame) (havail : 0 < m.frames.available)
    (hslots : 0 < m.freeSlots.card)
    (hlate : (∃ j < 1024, Present (entry m.mem t j)) →
      2 ≤ m.frames.available ∨ 3 ≤ m.freeSlots.card)
    (h : m.clonePageTable ⟨tablePa, pageAddress so⟩ = .ok (r, m')) :
    ∃ k, m.frames.Free k ∧ ¬m'.frames.Free k := by
  obtain ⟨t', sn, m0, m1, halloc, hmap, hmemset, hnew⟩ := newPage_spec hkern havail hslots
  have hentry : ∀ i < 1024, entry m1.mem t i = entry m.mem t i := fun i => hnew.entry_eq ht
  have hold1 := hnew.keeps hold
  have havail1 := hnew.available
  have hcard1 := hnew.card_freeSlots
  rw [clonePageTable, halloc, ok_bind] at h
  dsimp only at h
  rw [if_neg (shiftLeft_ne_noFrame t'), hmap] at h
  rw [if_neg (pageAddress_ne_null sn), hmemset, ok_bind] at h
  obtain ⟨⟨done, m2⟩, hentries, h⟩ := bind_eq_ok.mp h
  by_cases hdone : done = true
  · -- The table is kept.
    rw [if_pos hdone] at h
    cases h
    exact ⟨t', hnew.free, fun hfree => hnew.used (cloneEntries_free hentries hfree)⟩
  · -- The loop stopped at a page, and the frame for this or an earlier page is lost.
    rw [if_neg hdone] at h
    cases h
    have hex : ∃ j < 1024, Present (entry m.mem t j) := by
      by_contra hnone
      push Not at hnone
      have hall := cloneEntries_skip (pageAddress sn) 0 (i := 0) (n := 0x400) hold1 (by decide)
        fun j _ hj => hentry j hj ▸ hnone j hj
      rw [hentries] at hall
      exact hdone (Prod.mk.inj (Except.ok.inj hall)).1
    have hfew : m1.freeSlots.card < 2 := by
      by_contra henough
      exact hdone (cloneEntries_done hentries (by omega))
    have htwo := (hlate hex).resolve_right (by omega)
    obtain ⟨j, hj, hpres, hout⟩ := first_present hex
    rw [cloneEntries_first (pageAddress sn) hold1 hj fun i hi =>
      hentry i (by omega) ▸ hout i hi] at hentries
    obtain ⟨k, hfree, htaken⟩ := cloneEntries_taken hold1 hj (hentry j hj ▸ hpres) (by omega)
      hentries
    refine ⟨k, ?_, fun hfree' => ?_⟩
    · exact Classical.not_not.mp fun hused => hnew.stillUsed hused hfree
    · rcases Frames.free_freePhysFrame.mp hfree' with heq | hfree'
      · rw [Nat.shiftLeft_shiftRight] at heq
        exact hnew.used (heq ▸ hfree)
      · exact htaken hfree'

section Directory

variable {d c sd sc n q : Nat} {tb : Nat → Nat} {g : Nat → Nat → Nat} {m0 : Machine}

theorem cloneTables_skip (h : TablesCloned m0 m d c sc n tb g) (hspace : m0.Space d)
    (hkern : ¬m0.frames.Free m0.kernFrame) (hsd : m0.Maps sd d) (hsc : sc ∈ m0.freeSlots)
    (rounds : Nat) (hbound : n + q ≤ 1024)
    (hnone : ∀ j, n ≤ j → j < n + q → ¬(Private j ∧ Present (entry m0.mem d j))) :
    ∃ m', cloneTables (pageAddress sd) (pageAddress sc) (q + rounds) n m =
        cloneTables (pageAddress sd) (pageAddress sc) rounds (n + q) m' ∧
      TablesCloned m0 m' d c sc (n + q) tb g := by
  induction q generalizing n m with
  | zero =>
    refine ⟨m, ?_, h⟩
    rw [zero_add, add_zero]
  | succ q ih =>
    have hn : n < 1024 := by omega
    have hrest : ∀ j, n + 1 ≤ j → j < n + 1 + q → ¬(Private j ∧ Present (entry m0.mem d j)) :=
      fun j hle hlt => hnone j (by omega) (by omega)
    rw [Nat.succ_add, cloneTables, load32_page (h.mapsDir hsc hsd) hn, ok_bind,
      h.entry_eq hspace.dir hn, ← add_assoc n q 1, add_right_comm n q 1]
    by_cases hpres : Present (entry m0.mem d n)
    · have hshared : ¬Private n := fun hpriv =>
        hnone n (le_refl n) (by omega) ⟨hpriv, hpres⟩
      rw [if_pos hpres, if_pos (not_not.mp hshared),
        store32_page (h.mapsNew hsc) (h.ne_kern hkern) hn, ok_bind]
      exact ih (h.share hkern hn hshared hpres) (by omega) hrest
    · rw [if_neg hpres]
      exact ih (h.skip hpres) (by omega) hrest

theorem mapVirtualPage_table (ht : m.Owned t) (ht20 : t < 2 ^ 20) (hslots : 0 < m.freeSlots.card) :
    ∃ a ∈ m.freeSlots, m.mapVirtualPage (t <<< 12 ||| 3) =
        (pageAddress a, m.setSlot a (t * 4096 + 3)) ∧
      (m.setSlot a (t * 4096 + 3)).Maps a t ∧
      (∀ j < 1024, entry (m.setSlot a (t * 4096 + 3)).mem t j = entry m.mem t j) ∧
      (m.setSlot a (t * 4096 + 3)).freeSlots.card + 1 = m.freeSlots.card := by
  obtain ⟨a, ha, hmap, hmaps⟩ := m.mapVirtualPage_frame ht20 hslots
  refine ⟨a, ha, hmap, hmaps, fun j hj => ?_, card_freeSlots_setSlot ha (by omega) (by omega)⟩
  exact entry_congr (fun x hx => mem_setSlot (mem_freeSlots.mp ha).1 (hx ▸ ht.1)) hj

theorem cloneTables_undone (newVa rounds : Nat) (hsd : m.Maps sd d) (hi : i < 1024)
    (hpriv : Private i) (hpres : Present (entry m.mem d i))
    (hbig : ¬BigPage (entry m.mem d i)) (ht : m.Owned (entry m.mem d i / 4096))
    (hkern : ¬m.frames.Free m.kernFrame)
    (hearly : m.frames.available = 0 ∨ m.freeSlots.card < 2 ∨ m.frames.available = 1 ∧
      m.freeSlots.card < 4 ∧ ∃ j < 1024, Present (entry m.mem (entry m.mem d i / 4096) j)) :
    ∃ m', cloneTables (pageAddress sd) newVa (rounds + 1) i m = .ok (false, m') ∧ m.Undone m' := by
  have he := entry_lt m.mem d i
  rw [cloneTables, load32_page hsd hi, ok_bind, if_pos hpres, if_neg hpriv, if_neg hbig]
  dsimp only
  rcases Nat.eq_zero_or_pos m.freeSlots.card with hnone | hsome
  · rw [mapVirtualPage_none _ hnone]
    exact ⟨m, rfl, .refl m⟩
  obtain ⟨a, ha, hmap, hmaps, hentry, hcard⟩ := mapVirtualPage_table ht (by omega) hsome
  obtain ⟨m2, hclone, hundo⟩ := clonePageTable_undone ((entry m.mem d i / 4096) <<< 12) hmaps ht
    hkern (by
      rw [setSlot_frames]
      rcases hearly with hnone | hfew | ⟨hone, hslots, j, hj, hpage⟩
      · exact .inl hnone
      · exact .inr (.inl (by omega))
      · exact .inr (.inr ⟨hone, by omega, j, hj, by rwa [hentry j hj]⟩))
  rw [hmap]
  rw [if_neg (pageAddress_ne_null a), hclone, ok_bind]
  exact ⟨_, rfl, hundo.unmap ha (by omega)⟩

theorem cloneTables_taken {newVa : Nat} (hsd : m.Maps sd d) (hi : i < 1024)
    (hpriv : Private i) (hpres : Present (entry m.mem d i))
    (ht : m.Owned (entry m.mem d i / 4096)) (hkern : ¬m.frames.Free m.kernFrame)
    (havail : 0 < m.frames.available) (hslots : 2 ≤ m.freeSlots.card)
    (hlate : (∃ j < 1024, Present (entry m.mem (entry m.mem d i / 4096) j)) →
      2 ≤ m.frames.available ∨ 4 ≤ m.freeSlots.card)
    (h : cloneTables (pageAddress sd) newVa (rounds + 1) i m = .ok (done, m')) :
    ∃ k, m.frames.Free k ∧ ¬m'.frames.Free k := by
  have he := entry_lt m.mem d i
  obtain ⟨a, ha, hmap, hmaps, hentry, hcard⟩ := mapVirtualPage_table ht (by omega) (by omega)
  rw [cloneTables, load32_page hsd hi, ok_bind, if_pos hpres, if_neg hpriv] at h
  split at h
  · cases h
  dsimp only at h
  rw [hmap] at h
  rw [if_neg (pageAddress_ne_null a)] at h
  obtain ⟨⟨newTbl, m2⟩, hclone, h⟩ := bind_eq_ok.mp h
  obtain ⟨k, hfree, htaken⟩ := clonePageTable_taken hmaps ht hkern havail (by omega) (by
    rintro ⟨j, hj, hpage⟩
    rcases hlate ⟨j, hj, hentry j hj ▸ hpage⟩ with htwo | hfour
    · exact .inl htwo
    · exact .inr (by omega)) hclone
  refine ⟨k, hfree, fun hfree' => htaken ?_⟩
  split at h
  · cases h
    exact hfree'
  obtain ⟨flags, -, h⟩ := bind_eq_ok.mp h
  obtain ⟨m3, hstore, h⟩ := bind_eq_ok.mp h
  have hfree3 := cloneTables_free h hfree'
  rwa [storeEntry_frames hstore] at hfree3

structure FirstTable (mem : Nat → UInt8) (d i : Nat) : Prop where
  bound : i < 1024
  isPrivate : Private i
  present : Present (entry mem d i)
  first : ∀ j < i, ¬(Private j ∧ Present (entry mem d j))

theorem clonePageDirectory_first (dirPa : Nat) (hspace : m.Space d)
    (hkern : ¬m.frames.Free m.kernFrame) (hsd : m.Maps sd d) (havail : 0 < m.frames.available)
    (hslots : 0 < m.freeSlots.card) (hi : FirstTable m.mem d i) :
    ∃ c sc m1, TablesCloned m m1 d c sc i id (fun _ => id) ∧ sc ∈ m.freeSlots ∧
      m.clonePageDirectory ⟨dirPa, pageAddress sd⟩ = (do
        let (done, m) ← cloneTables (pageAddress sd) (pageAddress sc) (1023 - i + 1) i m1
        if done then
          .ok (⟨c <<< 12, pageAddress sc⟩, m)
        else
          .ok (⟨noFrame, 0⟩, (m.unmapVirtualPage (pageAddress sc)).freePhysFrame (c <<< 12))) := by
  obtain ⟨c, sc, m0, m1, halloc, hmap, hmemset, hnew⟩ := newPage_spec hkern havail hslots
  have hbound := hi.bound
  obtain ⟨m2, hskip, hclone⟩ := cloneTables_skip (hnew.tablesCloned d) hspace hkern hsd
    hnew.slotFree (q := i) (1023 - i + 1) (by omega) fun j _ hj => hi.first j (by omega)
  rw [zero_add] at hskip hclone
  rw [show i + (1023 - i + 1) = 0x400 by omega] at hskip
  refine ⟨c, sc, m2, hclone, hnew.slotFree, ?_⟩
  rw [clonePageDirectory, halloc, ok_bind]
  dsimp only
  rw [if_neg (shiftLeft_ne_noFrame c), hmap]
  dsimp only
  rw [if_neg (pageAddress_ne_null sc), hmemset, ok_bind, hskip]

theorem FirstTable.took (hi : FirstTable m0.mem d i) (h : TablesCloned m0 m d c sc i tb g) :
    m0.frames.Took m.frames [c] := by
  have htables : tablesBelow m0.mem d i = [] := by
    apply filter_eq_nil_iff.mpr
    intro j hj
    simpa using hi.first j (mem_range.mp hj)
  have htook := h.took
  rw [newFrames, htables] at htook
  exact htook

theorem clonePageDirectory_undone (dirPa : Nat) (hspace : m.Space d)
    (hkern : ¬m.frames.Free m.kernFrame) (hsd : m.Maps sd d)
    (hearly : m.frames.available = 0 ∨ m.freeSlots.card = 0 ∨ ∃ i, FirstTable m.mem d i ∧
      (m.frames.available = 1 ∨ m.freeSlots.card < 3 ∨ m.frames.available = 2 ∧
        m.freeSlots.card < 5 ∧ ∃ j < 1024, Present (entry m.mem (entry m.mem d i / 4096) j))) :
    ∃ m', m.clonePageDirectory ⟨dirPa, pageAddress sd⟩ = .ok (⟨noFrame, 0⟩, m') ∧ m.Undone m' := by
  rcases Nat.eq_zero_or_pos m.frames.available with hnone | havail
  · rw [clonePageDirectory, allocPhysFrame_none hnone, ok_bind]
    exact ⟨m, rfl, .refl m⟩
  rcases Nat.eq_zero_or_pos m.freeSlots.card with hfull | hsome
  · obtain ⟨k, hfree, -, halloc⟩ := allocPhysFrame_available havail
    rw [clonePageDirectory, halloc, ok_bind]
    dsimp only
    rw [if_neg (shiftLeft_ne_noFrame k), mapVirtualPage_none _ (by simpa using hfull)]
    exact ⟨_, rfl, undone_clr hfree⟩
  obtain ⟨i, hi, hshort⟩ := (hearly.resolve_left (by omega)).resolve_left (by omega)
  obtain ⟨c, sc, m1, hclone, hsc, hcall⟩ := clonePageDirectory_first dirPa hspace hkern hsd havail
    hsome hi
  have htook := hi.took hclone
  have havail1 := htook.available
  have hcard1 := hclone.card_freeSlots hsc
  rw [length_singleton] at havail1
  have hdir := hclone.entry_eq hspace.dir hi.bound
  have ht := hspace.tables i hi.bound hi.isPrivate hi.present
  obtain ⟨m2, hloop, hundo⟩ := cloneTables_undone (pageAddress sc) (1023 - i)
    (hclone.mapsDir hsc hsd) hi.bound hi.isPrivate (hdir ▸ hi.present)
    (hdir ▸ hspace.big i hi.bound hi.isPrivate hi.present) (hdir ▸ hclone.owned ht)
    (fun hfree => hkern (hclone.kernFrame ▸ ((htook.free_iff _).mp hfree).1)) (by
      rw [hdir]
      rcases hshort with hone | hfew | ⟨htwo, hfew, j, hj, hpage⟩
      · exact .inl (by omega)
      · exact .inr (.inl (by omega))
      · exact .inr (.inr ⟨by omega, by omega, j, hj, by rwa [hclone.entry_eq ht hj]⟩))
  refine ⟨_, ?_, undone_page hclone.free.1 hsc ?_ hclone.slots hundo⟩
  · rw [hcall, hloop, ok_bind]
    rfl
  · intro f
    rw [htook.free_iff, (Frames.took_clr hclone.free.1 hclone.free.2).free_iff]

theorem clonePageDirectory_taken {dirPa : Nat} {r : Pgdir} (hspace : m.Space d)
    (hkern : ¬m.frames.Free m.kernFrame) (hsd : m.Maps sd d) (hi : FirstTable m.mem d i)
    (havail : 2 ≤ m.frames.available) (hslots : 3 ≤ m.freeSlots.card)
    (hlate : (∃ j < 1024, Present (entry m.mem (entry m.mem d i / 4096) j)) →
      3 ≤ m.frames.available ∨ 5 ≤ m.freeSlots.card)
    (h : m.clonePageDirectory ⟨dirPa, pageAddress sd⟩ = .ok (r, m')) :
    ∃ k, m.frames.Free k ∧ ¬m'.frames.Free k := by
  obtain ⟨c, sc, m1, hclone, hsc, hcall⟩ := clonePageDirectory_first dirPa hspace hkern hsd
    (by omega) (by omega) hi
  have htook := hi.took hclone
  have havail1 := htook.available
  have hcard1 := hclone.card_freeSlots hsc
  rw [length_singleton] at havail1
  have hdir := hclone.entry_eq hspace.dir hi.bound
  have ht := hspace.tables i hi.bound hi.isPrivate hi.present
  rw [hcall] at h
  obtain ⟨⟨done, m2⟩, hloop, h⟩ := bind_eq_ok.mp h
  obtain ⟨k, hfree, htaken⟩ := cloneTables_taken (hclone.mapsDir hsc hsd) hi.bound hi.isPrivate
    (hdir ▸ hi.present) (hdir ▸ hclone.owned ht)
    (fun hfree => hkern (hclone.kernFrame ▸ ((htook.free_iff _).mp hfree).1)) (by omega)
    (by omega) (by
      rw [hdir]
      rintro ⟨j, hj, hpage⟩
      rw [hclone.entry_eq ht hj] at hpage
      rcases hlate ⟨j, hj, hpage⟩ with hthree | hfive
      · exact .inl (by omega)
      · exact .inr (by omega)) hloop
  have hfree0 := (htook.free_iff k).mp hfree
  refine ⟨k, hfree0.1, fun hfree' => ?_⟩
  dsimp only at h
  split at h
  · cases h
    exact htaken hfree'
  · cases h
    rcases Frames.free_freePhysFrame.mp hfree' with heq | hfree'
    · rw [Nat.shiftLeft_shiftRight] at heq
      exact hfree0.2 (mem_singleton.mpr heq.symm)
    · exact htaken hfree'

/-- Somewhere in a copy of table `t` a frame or a kernel page is missing. -/
def TableShort (m : Machine) (t : Nat) : Prop :=
  m.frames.available < (presentFrom m.mem t 0 1024).length + 1 ∨
    m.freeSlots.card < if presentFrom m.mem t 0 1024 = [] then 1 else 3

/-- Somewhere in a copy of directory `d` a frame or a kernel page is missing. -/
def DirShort (m : Machine) (d : Nat) : Prop :=
  m.frames.available < cost m.mem d 1024 + 1 ∨
    m.freeSlots.card < if tablesBelow m.mem d 1024 = [] then 1
      else if ∀ i ∈ tablesBelow m.mem d 1024, pagesOf m.mem d i = [] then 3 else 5

variable {mem : Nat → UInt8}

theorem presentFrom_ne_nil :
    presentFrom mem t 0 1024 ≠ [] ↔ ∃ j < 1024, Present (entry mem t j) := by
  constructor
  · intro hne
    obtain ⟨j, hmem⟩ := exists_mem_of_ne_nil _ hne
    obtain ⟨⟨-, hj⟩, hpres⟩ := mem_presentFrom.mp hmem
    exact ⟨j, by omega, hpres⟩
  · rintro ⟨j, hj, hpres⟩
    exact ne_nil_of_mem (mem_presentFrom.mpr ⟨⟨Nat.zero_le j, by omega⟩, hpres⟩)

theorem first_table (h : tablesBelow mem d 1024 ≠ []) : ∃ i, FirstTable mem d i := by
  obtain ⟨i, hi⟩ := exists_mem_of_ne_nil _ h
  have hex : ∃ i, i < 1024 ∧ Private i ∧ Present (entry mem d i) := ⟨i, mem_tablesBelow.mp hi⟩
  obtain ⟨hbound, hpriv, hpres⟩ := Nat.find_spec hex
  exact ⟨Nat.find hex, hbound, hpriv, hpres, fun j hj hj' =>
    Nat.find_min hex hj ⟨by omega, hj'⟩⟩

theorem table_undone_iff (tablePa : Nat) (hold : m.Maps so t) (ht : m.Owned t)
    (hkern : ¬m.frames.Free m.kernFrame) (hshort : m.TableShort t) :
    (∃ m', m.clonePageTable ⟨tablePa, pageAddress so⟩ = .ok (⟨noFrame, 0⟩, m') ∧ m.Undone m') ↔
      m.frames.available = 0 ∨ m.freeSlots.card = 0 ∨
        m.frames.available = 1 ∧ m.freeSlots.card < 3 := by
  constructor
  · rintro ⟨m', hcall, hundo⟩
    by_contra hlate
    obtain ⟨k, hfree, htaken⟩ := clonePageTable_taken hold ht hkern (by omega) (by omega)
      (fun _ => by omega) hcall
    exact htaken ((hundo.frames k).mpr hfree)
  · intro hearly
    apply clonePageTable_undone tablePa hold ht hkern
    by_cases hempty : presentFrom m.mem t 0 1024 = []
    · rw [TableShort, if_pos hempty, hempty, length_nil] at hshort
      omega
    · have hex := presentFrom_ne_nil.mp hempty
      rcases hearly with hnone | hfull | ⟨hone, hfew⟩
      · exact .inl hnone
      · exact .inr (.inl hfull)
      · exact .inr (.inr ⟨hone, hfew, hex⟩)

theorem directory_undone_iff (dirPa : Nat) (hspace : m.Space d) (hsd : m.Maps sd d)
    (hkern : ¬m.frames.Free m.kernFrame) (hshort : m.DirShort d) :
    (∃ m', m.clonePageDirectory ⟨dirPa, pageAddress sd⟩ = .ok (⟨noFrame, 0⟩, m') ∧ m.Undone m') ↔
      m.frames.available < 2 ∨ m.freeSlots.card < 3 ∨ m.frames.available = 2 ∧
        m.freeSlots.card < 5 ∧ ∃ i, FirstTable m.mem d i ∧ pagesOf m.mem d i ≠ [] := by
  have hempty : tablesBelow m.mem d 1024 = [] → m.frames.available = 0 ∨ m.freeSlots.card = 0 := by
    intro hempty
    rw [DirShort, if_pos hempty, cost, hempty, map_nil, sum_nil] at hshort
    omega
  constructor
  · rintro ⟨m', hcall, hundo⟩
    by_contra hlate
    push Not at hlate
    obtain ⟨htwo, hthree, hlate⟩ := hlate
    obtain ⟨i, hi⟩ := first_table fun hnil => by
      have := hempty hnil
      omega
    obtain ⟨k, hfree, htaken⟩ := clonePageDirectory_taken hspace hkern hsd hi htwo hthree (by
      intro hpages
      by_contra hfew
      exact presentFrom_ne_nil.mpr hpages (hlate (by omega) (by omega) i hi)) hcall
    exact htaken ((hundo.frames k).mpr hfree)
  · intro hearly
    apply clonePageDirectory_undone dirPa hspace hkern hsd
    by_cases hnil : tablesBelow m.mem d 1024 = []
    · have := hempty hnil
      omega
    obtain ⟨i, hi⟩ := first_table hnil
    rcases hearly with hfew | hfew | ⟨htwo, hfew, i', hi', hpages⟩
    · by_cases hnone : m.frames.available = 0
      · exact .inl hnone
      · exact .inr (.inr ⟨i, hi, .inl (by omega)⟩)
    · exact .inr (.inr ⟨i, hi, .inr (.inl hfew)⟩)
    · exact .inr (.inr ⟨i', hi', .inr (.inr ⟨htwo, hfew, presentFrom_ne_nil.mp hpages⟩)⟩)

end Directory

/-- A call that comes short fails and leaves nothing behind if and only if nothing was missing
later than the new table of the first private table, or if the frame and a kernel page for the
first page are missing together. -/
theorem failed_clone_undone_iff (m : Machine) (hkern : ¬m.frames.Free m.kernFrame) :
    (∀ t so tablePa, m.Maps so t → m.Owned t → m.TableShort t →
      ((∃ m', m.clonePageTable ⟨tablePa, pageAddress so⟩ = .ok (⟨noFrame, 0⟩, m') ∧ m.Undone m') ↔
        m.frames.available = 0 ∨ m.freeSlots.card = 0 ∨
          m.frames.available = 1 ∧ m.freeSlots.card < 3)) ∧
    ∀ d sd dirPa, m.Space d → m.Maps sd d → m.DirShort d →
      ((∃ m', m.clonePageDirectory ⟨dirPa, pageAddress sd⟩ = .ok (⟨noFrame, 0⟩, m') ∧
          m.Undone m') ↔
        m.frames.available < 2 ∨ m.freeSlots.card < 3 ∨ m.frames.available = 2 ∧
          m.freeSlots.card < 5 ∧ ∃ i, FirstTable m.mem d i ∧ pagesOf m.mem d i ≠ []) :=
  ⟨fun _ _ tablePa hold ht hshort => table_undone_iff tablePa hold ht hkern hshort,
    fun _ _ dirPa hspace hsd hshort => directory_undone_iff dirPa hspace hsd hkern hshort⟩

theorem Space.setFrames {d : Nat} {frames : Frames} (h : m.Space d)
    (hused : ∀ f, frames.Free f → m.frames.Free f) : (m.setFrames frames).Space d := by
  have howned : ∀ {f}, m.Owned f → (m.setFrames frames).Owned f := fun hf =>
    ⟨hf.1, fun hfree => hf.2 (hused _ hfree)⟩
  refine ⟨howned h.dir, h.big, ?_, ?_⟩
  · intro i hi hpriv hpres
    exact howned (h.tables i hi hpriv hpres)
  · intro i hi hpriv hpres j hj hpage
    exact howned (h.pages i hi hpriv hpres j hj hpage)

def framesLeft (left : BitVec 32) : Machine :=
  onePage.setFrames ⟨fun word => if word = 0 then left &&& 0xFFFFFFE0 else 0, 32, small_limit_le⟩

theorem framesLeft_space (left : BitVec 32) : (framesLeft left).Space 2 := by
  apply onePage_space.setFrames
  intro f hfree
  rw [Frames.Free, Bitmap.test_eq] at hfree ⊢
  dsimp only [onePage] at hfree ⊢
  split at hfree
  · rename_i hword
    rw [BitVec.getLsbD_and, Bool.and_eq_true] at hfree
    rw [if_pos hword]
    exact hfree.2
  · simp at hfree

theorem onePage_first : FirstTable onePage.mem 2 0 where
  bound := by decide
  isPrivate := by decide
  present := by decide +kernel
  first := nofun

theorem missing_frame_unnoticed :
    (framesLeft 0x60).Space 2 ∧ (framesLeft 0x60).Maps 0 2 ∧
      ¬(framesLeft 0x60).frames.Free (framesLeft 0x60).kernFrame ∧ (framesLeft 0x60).DirShort 2 ∧
      ¬∃ m', (framesLeft 0x60).clonePageDirectory ⟨2 <<< 12, pageAddress 0⟩ =
        .ok (⟨noFrame, 0⟩, m') ∧ (framesLeft 0x60).Undone m' := by
  have hspace := framesLeft_space 0x60
  have hmaps : (framesLeft 0x60).Maps 0 2 := by decide +kernel
  have hkern : ¬(framesLeft 0x60).frames.Free (framesLeft 0x60).kernFrame := by decide
  have htwo : (framesLeft 0x60).frames.available = 2 := by decide +kernel
  have hslots : 5 ≤ (framesLeft 0x60).freeSlots.card := onePage_freeSlots
  refine ⟨hspace, hmaps, hkern, .inl (by rw [htwo]; decide +kernel), ?_⟩
  rintro ⟨m', hcall, hundone⟩
  obtain ⟨k, hfree, htaken⟩ := clonePageDirectory_taken hspace hkern hmaps onePage_first
    (by omega) (by omega) (fun _ => .inr hslots) hcall
  exact htaken ((hundone.frames k).mpr hfree)

theorem failed_clone_undone_iff_one_frame :
    (¬∃ m', (framesLeft 0x20).clonePageTable ⟨2 <<< 12, pageAddress 0⟩ = .ok (⟨noFrame, 0⟩, m') ∧
      (framesLeft 0x20).Undone m') ∧
    ∃ m', (framesLeft 0x20).clonePageDirectory ⟨2 <<< 12, pageAddress 0⟩ =
      .ok (⟨noFrame, 0⟩, m') ∧ (framesLeft 0x20).Undone m' := by
  have hspace := framesLeft_space 0x20
  have hmaps : (framesLeft 0x20).Maps 0 2 := by decide +kernel
  have hone : (framesLeft 0x20).frames.available = 1 := by decide +kernel
  have hslots : 5 ≤ (framesLeft 0x20).freeSlots.card := onePage_freeSlots
  obtain ⟨htable, hdirectory⟩ := failed_clone_undone_iff (framesLeft 0x20) (by decide)
  constructor
  · rw [htable 2 0 (2 <<< 12) hmaps hspace.dir (.inl (by rw [hone]; decide +kernel))]
    omega
  · rw [hdirectory 2 0 (2 <<< 12) hspace hmaps (.inl (by rw [hone]; decide +kernel))]
    omega

end Quest.Mem.Machine
