import Quest.Mem.Virtual

/-! Copies of address spaces: `clone_page_table` and `clone_page_directory`. -/
namespace Quest.Mem

open Quest.Lib Memory List Function

structure Pgtbl where
  tablePa : Nat
  tableVa : Nat

structure Pgdir where
  dirPa : Nat
  dirVa : Nat

namespace Machine

def storeFlags (m : Machine) (va flags : Nat) : Except Fault Machine := do
  let e ← m.load32 va
  m.store32 va (e / 4096 * 4096 + flags % 4096)

def storeFramenum (m : Machine) (va framenum : Nat) : Except Fault Machine := do
  let e ← m.load32 va
  m.store32 va (framenum % 2 ^ 20 * 4096 + e % 4096)

def storeEntry (m : Machine) (va flags framenum : Nat) : Except Fault Machine := do
  let m ← m.storeFlags va flags
  m.storeFramenum va framenum

/-- The loop of `clone_page_table`; `false` is its `goto abort_tbl_va`. -/
def cloneEntries (oldVa newVa : Nat) : Nat → Nat → Machine → Except Fault (Bool × Machine)
  | 0, _, m => .ok (true, m)
  | rounds + 1, i, m => do
    let e ← m.load32 (oldVa + 4 * i)
    if Present e then do
      let (newFrame, m) ← m.allocPhysFrame
      let oldFrame := (e / 4096) <<< 12
      let (oldPage, m) := m.mapVirtualPage (oldFrame ||| 3)
      if oldPage = 0 then
        .ok (false, m)
      else do
        let (newPage, m) := m.mapVirtualPage (newFrame ||| 3)
        if newPage = 0 then
          .ok (false, m.unmapVirtualPage oldPage)
        else do
          let m ← m.memcpy newPage oldPage 4096
          let flags ← m.load32 (oldVa + 4 * i)
          let m ← m.storeEntry (newVa + 4 * i) flags (newFrame >>> 12)
          cloneEntries oldVa newVa rounds (i + 1)
            ((m.unmapVirtualPage oldPage).unmapVirtualPage newPage)
    else
      cloneEntries oldVa newVa rounds (i + 1) m

def clonePageTable (m : Machine) (tbl : Pgtbl) : Except Fault (Pgtbl × Machine) := do
  let (tablePa, m) ← m.allocPhysFrame
  if tablePa = noFrame then
    .ok (⟨noFrame, 0⟩, m)
  else do
    let (tableVa, m) := m.mapVirtualPage (tablePa ||| 3)
    if tableVa = 0 then
      .ok (⟨noFrame, 0⟩, m.freePhysFrame tablePa)
    else do
      let m ← m.memset tableVa 0 4096
      let (done, m) ← cloneEntries tbl.tableVa tableVa 0x400 0 m
      if done then
        .ok (⟨tablePa, tableVa⟩, m)
      else
        .ok (⟨noFrame, 0⟩, (m.unmapVirtualPage tableVa).freePhysFrame tablePa)

def pgdirKernelBegin : Nat := 0x300

def pgdirKernelStack : Nat := 0x3FE

/-- The loop of `clone_page_directory`; `false` is its `goto abort_pgd_va`. -/
def cloneTables (dirVa newVa : Nat) : Nat → Nat → Machine → Except Fault (Bool × Machine)
  | 0, _, m => .ok (true, m)
  | rounds + 1, i, m => do
    let e ← m.load32 (dirVa + 4 * i)
    if Present e then
      if pgdirKernelBegin ≤ i ∧ i ≠ pgdirKernelStack then do
        let m ← m.store32 (newVa + 4 * i) e
        cloneTables dirVa newVa rounds (i + 1) m
      else if BigPage e then
        .error (.panic "userspace 4 MiB pages not supported")
      else do
        let tablePa := (e / 4096) <<< 12
        let (tableVa, m) := m.mapVirtualPage (tablePa ||| 3)
        if tableVa = 0 then
          .ok (false, m)
        else do
          let (newTbl, m) ← m.clonePageTable ⟨tablePa, tableVa⟩
          let m := m.unmapVirtualPage tableVa
          if newTbl.tablePa = noFrame then
            .ok (false, m)
          else do
            let m := m.unmapVirtualPage newTbl.tableVa
            let flags ← m.load32 (dirVa + 4 * i)
            let m ← m.storeEntry (newVa + 4 * i) flags (newTbl.tablePa >>> 12)
            cloneTables dirVa newVa rounds (i + 1) m
    else
      cloneTables dirVa newVa rounds (i + 1) m

def clonePageDirectory (m : Machine) (dir : Pgdir) : Except Fault (Pgdir × Machine) := do
  let (newPgdPa, m) ← m.allocPhysFrame
  if newPgdPa = noFrame then
    .ok (⟨noFrame, 0⟩, m)
  else do
    let (dirVa, m) := m.mapVirtualPage (newPgdPa ||| 3)
    if dirVa = 0 then
      .ok (⟨noFrame, 0⟩, m.freePhysFrame newPgdPa)
    else do
      let m ← m.memset dirVa 0 4096
      let (done, m) ← cloneTables dir.dirVa dirVa 0x400 0 m
      if done then
        .ok (⟨newPgdPa, dirVa⟩, m)
      else
        .ok (⟨noFrame, 0⟩, (m.unmapVirtualPage dirVa).freePhysFrame newPgdPa)

variable {m m' : Machine} {so sn t t' p k i j e rounds s f : Nat}

theorem storeEntry_page {flags framenum : Nat} (h : m.Maps s f) (hf : f ≠ m.kernFrame)
    (hi : i < 1024) :
    m.storeEntry (pageAddress s + 4 * i) flags framenum =
      .ok (m.writeWord (f * 4096 + 4 * i) (framenum % 2 ^ 20 * 4096 + flags % 4096)) := by
  have he := word_lt m.mem (f * 4096 + 4 * i)
  have hv : entry m.mem f i / 4096 * 4096 + flags % 4096 < 2 ^ 32 := by
    rw [entry]
    omega
  have hmaps : (m.writeWord (f * 4096 + 4 * i)
      (entry m.mem f i / 4096 * 4096 + flags % 4096)).Maps s f := h.write (by omega) hf
  rw [storeEntry, storeFlags, load32_page h hi, ok_bind, store32_page h hf hi, ok_bind,
    storeFramenum, load32_page hmaps hi, ok_bind, store32_page hmaps hf hi,
    entry_writeWord hv hi hi, if_pos ⟨rfl, rfl⟩]
  congr 1
  simp only [writeWord, write]
  congr 1
  have hflags : (entry m.mem f i / 4096 * 4096 + flags % 4096) % 4096 = flags % 4096 := by omega
  rw [hflags]
  exact setWord_setWord

def copied (m : Machine) (p k t' i flags : Nat) : Machine :=
  ((m.setFrames (m.frames.clr k 1)).writePage k fun j => m.mem (p * 4096 + j)).writeWord
    (t' * 4096 + 4 * i) (k * 4096 + flags)

section Round

variable {a b : Nat}

theorem unmapped_eq_copied {flags : Nat} (ha : a ∈ m.freeSlots) (hb : b ∈ m.freeSlots)
    (hp : p < 2 ^ 20) (hk : k < 2 ^ 20) (hi : i < 1024) (hpkern : p ≠ m.kernFrame)
    (hkkern : k ≠ m.kernFrame) (ht' : t' ≠ m.kernFrame) {m3 : Machine}
    (hm3 : m3 = ((m.setFrames (m.frames.clr k 1)).setSlot a (p * 4096 + 3)).setSlot b
      (k * 4096 + 3)) :
    (((m3.writePage k fun j => m3.mem (p * 4096 + j)).writeWord (t' * 4096 + 4 * i)
      (k * 4096 + flags)).setSlot a 0).setSlot b 0 = m.copied p k t' i flags := by
  obtain ⟨ha, hazero⟩ := mem_freeSlots.mp ha
  obtain ⟨hb, hbzero⟩ := mem_freeSlots.mp hb
  have hkern3 : m3.kernFrame = m.kernFrame := by simp [hm3]
  have hmem3 : ∀ x, x / 4096 ≠ m.kernFrame → m3.mem x = m.mem x := by
    intro x hx
    rw [hm3, mem_setSlot hb (by simpa using hx), mem_setSlot ha (by simpa using hx), setFrames_mem]
  apply eq_of_slots
  · simp [hm3, copied]
  · simp [hm3, copied]
  · simp [hm3, copied]
  · intro j hj
    have hcopied : (m.copied p k t' i flags).slot j = m.slot j := by
      rw [copied, slot_writeWord (by simpa using ht') hi hj,
        slot_writePage (by simpa using hkkern) hj, setFrames_slot]
    have hslot3 : j ≠ a → j ≠ b → m3.slot j = m.slot j := by
      intro hja hjb
      rw [hm3, slot_setSlot (by omega) hb hj, if_neg hjb, slot_setSlot (by omega) ha hj,
        if_neg hja, setFrames_slot]
    rw [hcopied, slot_setSlot (by omega) hb hj, slot_setSlot (by omega) ha hj,
      slot_writeWord (by simpa [hkern3] using ht') hi hj, slot_writePage (hkern3 ▸ hkkern) hj]
    by_cases hjb : j = b
    · rw [if_pos hjb, hjb, hbzero]
    · rw [if_neg hjb]
      by_cases hja : j = a
      · rw [if_pos hja, hja, hazero]
      · rw [if_neg hja, hslot3 hja hjb]
  · intro x hx
    have hx' : x / 4096 ≠ m.kernFrame := by simpa [copied] using hx
    rw [mem_setSlot hb (by simpa [hkern3] using hx'), mem_setSlot ha (by simpa [hkern3] using hx')]
    apply blit_congr
    · rw [mem_writePage, mem_writePage, setFrames_mem, hmem3 x hx']
      split
      · apply hmem3
        omega
      · rfl
    · exact fun _ _ => rfl

theorem cloneEntries_present (rounds : Nat) (hold : m.Maps so t) (hnew : m.Maps sn t') (hi : i < 1024)
    (hpres : Present (entry m.mem t i)) (hp : entry m.mem t i / 4096 ≠ m.kernFrame)
    (hpused : ¬m.frames.Free (entry m.mem t i / 4096)) (ht : t ≠ m.kernFrame)
    (htused : ¬m.frames.Free t) (ht' : t' ≠ m.kernFrame) (hkern : ¬m.frames.Free m.kernFrame)
    (havail : 0 < m.frames.available) (hslots : 2 ≤ m.freeSlots.card) :
    ∃ k, m.frames.Free k ∧ k < m.frames.mmLimit ∧
      cloneEntries (pageAddress so) (pageAddress sn) (rounds + 1) i m =
        cloneEntries (pageAddress so) (pageAddress sn) rounds (i + 1)
          (m.copied (entry m.mem t i / 4096) k t' i (entry m.mem t i % 4096)) := by
  have he := entry_lt m.mem t i
  obtain ⟨k, hfree, hlt, halloc⟩ := allocPhysFrame_available havail
  have hk : k < 2 ^ 20 := lt_of_lt_of_le hlt m.frames.mmLimit_le
  have hkkern : k ≠ m.kernFrame := fun h => hkern (h ▸ hfree)
  have hkt : t ≠ k := fun h => htused (h ▸ hfree)
  have hkp : k ≠ entry m.mem t i / 4096 := fun h => hpused (h ▸ hfree)
  refine ⟨k, hfree, hlt, ?_⟩
  rw [cloneEntries, load32_page hold hi, ok_bind, if_pos hpres, halloc, ok_bind]
  generalize hpe : entry m.mem t i / 4096 = p at *
  have hp20 : p < 2 ^ 20 := by omega
  -- map the old page
  obtain ⟨a, ha, hmapa, hmapsa⟩ :=
    (m.setFrames (m.frames.clr k 1)).mapVirtualPage_frame hp20 (by
      rw [freeSlots_setFrames]
      omega)
  rw [freeSlots_setFrames] at ha
  have ha' := (mem_freeSlots.mp ha).1
  have hcard : ((m.setFrames (m.frames.clr k 1)).setSlot a (p * 4096 + 3)).freeSlots =
      m.freeSlots.erase a := freeSlots_setSlot ha' (by omega) (by omega)
  -- map the new page
  obtain ⟨b, hb, hmapb, hmapsb⟩ :=
    ((m.setFrames (m.frames.clr k 1)).setSlot a (p * 4096 + 3)).mapVirtualPage_frame hk (by
      rw [hcard, Finset.card_erase_of_mem ha]
      omega)
  rw [hcard, Finset.mem_erase] at hb
  obtain ⟨hba, hb⟩ := hb
  have hb' := (mem_freeSlots.mp hb).1
  obtain ⟨m3, hm3⟩ : ∃ m3, m3 = ((m.setFrames (m.frames.clr k 1)).setSlot a
    (p * 4096 + 3)).setSlot b (k * 4096 + 3) := ⟨_, rfl⟩
  have hkeep : ∀ {s f}, m.Maps s f → m3.Maps s f := by
    intro s f hmaps
    rw [hm3]
    exact (Maps.setSlot (m := m.setFrames (m.frames.clr k 1)) hmaps ha' (by omega)
      (hmaps.not_free ha)).setSlot hb' (by omega) (hmaps.not_free hb)
  have hkern3 : m3.kernFrame = m.kernFrame := by simp [hm3]
  have hmaps3a : m3.Maps a p := hm3 ▸ hmapsa.setSlot hb' (by omega) hba.symm
  have hmaps3b : m3.Maps b k := hm3 ▸ hmapsb
  have hk3 : k ≠ m3.kernFrame := hkern3 ▸ hkkern
  obtain ⟨m4, hm4⟩ : ∃ m4, m4 = m3.writePage k fun j => m3.mem (p * 4096 + j) := ⟨_, rfl⟩
  have hkeep4 : ∀ {s f}, m3.Maps s f → m4.Maps s f := by
    intro s f hmaps
    rw [hm4]
    exact hmaps.congr (slot_writePage hk3 hmaps.1)
  have hentry : entry m4.mem t i = entry m.mem t i := by
    rw [hm4, entry_writePage_off hkt hi]
    apply entry_congr _ hi
    intro x hx
    have hx' : x / 4096 ≠ m.kernFrame := hx ▸ ht
    rw [hm3, mem_setSlot hb' (by simpa using hx'), mem_setSlot ha' (by simpa using hx'),
      setFrames_mem]
  dsimp only
  rw [hmapa]
  rw [if_neg (pageAddress_ne_null a), hmapb]
  rw [if_neg (pageAddress_ne_null b), ← hm3, memcpy_whole hmaps3b hmaps3a hk3 hkp, ok_bind, ← hm4,
    load32_page (hkeep4 (hkeep hold)) hi, ok_bind, hentry,
    storeEntry_page (hkeep4 (hkeep hnew)) (by simpa [hm4, hkern3] using ht') hi, ok_bind,
    unmapVirtualPage_page ha', unmapVirtualPage_page hb', Nat.shiftLeft_shiftRight,
    Nat.mod_eq_of_lt hk, hm4, unmapped_eq_copied ha hb hp20 hk hi hp hkkern ht' hm3]

end Round

def presentFrom (mem : Nat → UInt8) (t i rounds : Nat) : List Nat :=
  (List.range' i rounds).filter fun j => Present (entry mem t j)

theorem presentFrom_succ {mem : Nat → UInt8} : presentFrom mem t i (rounds + 1) =
    if Present (entry mem t i) then i :: presentFrom mem t (i + 1) rounds
    else presentFrom mem t (i + 1) rounds := by
  rw [presentFrom, range'_succ, filter_cons]
  simp only [decide_eq_true_eq]
  rfl

theorem mem_presentFrom {mem : Nat → UInt8} :
    j ∈ presentFrom mem t i rounds ↔ (i ≤ j ∧ j < i + rounds) ∧ Present (entry mem t j) := by
  rw [presentFrom, mem_filter, mem_range'_1, decide_eq_true_eq]

theorem presentFrom_of_iff {mem mem' : Nat → UInt8}
    (h : ∀ j < i + rounds, (Present (entry mem' t' j) ↔ Present (entry mem t j))) :
    presentFrom mem' t' i rounds = presentFrom mem t i rounds := by
  apply filter_congr
  intro j hj
  exact decide_eq_decide.mpr (h j (mem_range'_1.mp hj).2)

theorem presentFrom_congr {mem mem' : Nat → UInt8} (h : ∀ j < 1024, entry mem' t j = entry mem t j)
    (hbound : i + rounds ≤ 1024) : presentFrom mem' t i rounds = presentFrom mem t i rounds := by
  apply presentFrom_of_iff
  intro j hj
  rw [h j (by omega)]

/-- The old table in frame `t` and the new one in `t'` are mapped, and neither they nor the pages
are free or the kernel's table. -/
structure Cloning (m : Machine) (so sn t t' : Nat) : Prop where
  old : m.Maps so t
  new : m.Maps sn t'
  apart : t ≠ t'
  tableKern : t ≠ m.kernFrame
  tableUsed : ¬m.frames.Free t
  newKern : t' ≠ m.kernFrame
  newUsed : ¬m.frames.Free t'
  kernUsed : ¬m.frames.Free m.kernFrame
  pages : ∀ j < 1024, Present (entry m.mem t j) → entry m.mem t j / 4096 ≠ m.kernFrame ∧
    ¬m.frames.Free (entry m.mem t j / 4096) ∧ entry m.mem t j / 4096 ≠ t'
  slots : 2 ≤ m.freeSlots.card

theorem mem_copied {flags x : Nat} (hi : i < 1024) (ht' : x / 4096 ≠ t') (hk : x / 4096 ≠ k) :
    (m.copied p k t' i flags).mem x = m.mem x := by
  rw [copied, mem_writeWord_off hi ht', mem_writePage, if_neg hk, setFrames_mem]

theorem entry_copied {flags : Nat} (hi : i < 1024) (hj : j < 1024) (hf : f ≠ t') (hk : f ≠ k) :
    entry (m.copied p k t' i flags).mem f j = entry m.mem f j := by
  apply entry_congr _ hj
  intro x hx
  exact mem_copied hi (hx ▸ hf) (hx ▸ hk)

theorem Cloning.copied (h : m.Cloning so sn t t') (hi : i < 1024) (hfree : m.frames.Free k)
    (p flags : Nat) : (m.copied p k t' i flags).Cloning so sn t t' := by
  have hkern : m.kernFrame ≠ k := fun heq => h.kernUsed (heq ▸ hfree)
  have hslot : ∀ s < 1024, (m.copied p k t' i flags).slot s = m.slot s := fun s hs =>
    entry_copied hi hs h.newKern.symm hkern
  have hentry : ∀ j < 1024, entry (m.copied p k t' i flags).mem t j = entry m.mem t j := fun j hj =>
    entry_copied hi hj h.apart fun heq => h.tableUsed (heq ▸ hfree)
  have hused : ∀ f, ¬m.frames.Free f → ¬(m.copied p k t' i flags).frames.Free f := by
    intro f hf hf'
    exact hf (Frames.free_clr.mp hf').1
  refine ⟨h.old.congr (hslot so h.old.1), h.new.congr (hslot sn h.new.1), h.apart, h.tableKern,
    hused _ h.tableUsed, h.newKern, hused _ h.newUsed, hused _ h.kernUsed, ?_, ?_⟩
  · intro j hj
    rw [hentry j hj]
    intro hpres
    obtain ⟨hkern', hfree', hnew⟩ := h.pages j hj hpres
    exact ⟨hkern', hused _ hfree', hnew⟩
  · have hslots : (m.copied p k t' i flags).freeSlots = m.freeSlots := by
      ext s
      rw [mem_freeSlots, mem_freeSlots]
      apply and_congr_right
      intro hs
      rw [hslot s hs]
    rw [hslots]
    exact h.slots

structure EntriesCloned (mem mem' : Nat → UInt8) (t t' i n : Nat) (g : Nat → Nat) : Prop where
  entries : ∀ j, i ≤ j → j < i + n → entry mem' t' j =
    if Present (entry mem t j) then g j * 4096 + entry mem t j % 4096 else 0
  pages : ∀ j, i ≤ j → j < i + n → Present (entry mem t j) →
    ∀ o < 4096, mem' (g j * 4096 + o) = mem (entry mem t j / 4096 * 4096 + o)

theorem EntriesCloned.source {mem mem1 mem' : Nat → UInt8} {g : Nat → Nat}
    (h : EntriesCloned mem1 mem' t t' 0 1024 g)
    (hentry : ∀ j < 1024, entry mem1 t j = entry mem t j)
    (hpage : ∀ j < 1024, Present (entry mem t j) → ∀ o < 4096,
      mem1 (entry mem t j / 4096 * 4096 + o) = mem (entry mem t j / 4096 * 4096 + o)) :
    EntriesCloned mem mem' t t' 0 1024 g := by
  constructor
  · intro j hle hlt
    rw [h.entries j hle hlt, hentry j (by omega)]
  · intro j hle hlt hpres o ho
    rw [← hentry j (by omega)] at hpres
    rw [h.pages j hle hlt hpres o ho, hentry j (by omega)]
    exact hpage j (by omega) (hentry j (by omega) ▸ hpres) o ho

theorem EntriesCloned.target {mem mem' mem'' : Nat → UInt8} {g : Nat → Nat}
    (h : EntriesCloned mem mem' t t' 0 1024 g)
    (hmem : ∀ x, x / 4096 ∈ t' :: (presentFrom mem t 0 1024).map g → mem'' x = mem' x) :
    EntriesCloned mem mem'' t t' 0 1024 g := by
  constructor
  · intro j hle hlt
    rw [← h.entries j hle hlt]
    apply entry_congr _ (by omega)
    intro x hx
    exact hmem x (hx ▸ mem_cons_self)
  · intro j hle hlt hpres o ho
    rw [← h.pages j hle hlt hpres o ho]
    apply hmem
    rw [show (g j * 4096 + o) / 4096 = g j by omega]
    apply mem_cons_of_mem
    exact mem_map_of_mem (mem_presentFrom.mpr ⟨⟨hle, hlt⟩, hpres⟩)

theorem cloneEntries_spec (h : m.Cloning so sn t t') (hbound : i + rounds ≤ 1024)
    (hzero : ∀ j, i ≤ j → j < i + rounds → entry m.mem t' j = 0)
    (havail : (presentFrom m.mem t i rounds).length ≤ m.frames.available) :
    ∃ g m', cloneEntries (pageAddress so) (pageAddress sn) rounds i m = .ok (true, m') ∧
      m.frames.Took m'.frames ((presentFrom m.mem t i rounds).map g) ∧
      m'.pdFrame = m.pdFrame ∧ m'.kernFrame = m.kernFrame ∧
      (∀ x, x / 4096 ≠ t' → x / 4096 ∉ (presentFrom m.mem t i rounds).map g →
        m'.mem x = m.mem x) ∧
      (∀ j < i, entry m'.mem t' j = entry m.mem t' j) ∧
      EntriesCloned m.mem m'.mem t t' i rounds g := by
  induction rounds generalizing i m with
  | zero =>
    refine ⟨id, m, rfl, Frames.Took.nil _, rfl, rfl, fun _ _ _ => rfl, fun _ _ => rfl, ?_, ?_⟩
    · intro j hle hlt
      omega
    · intro j hle hlt
      omega
  | succ rounds ih =>
    have hi : i < 1024 := by omega
    by_cases hpres : Present (entry m.mem t i)
    · rw [presentFrom_succ, if_pos hpres] at havail ⊢
      obtain ⟨hpkern, hpused, hpnew⟩ := h.pages i hi hpres
      obtain ⟨k, hfree, hlt, hstep⟩ := cloneEntries_present rounds h.old h.new hi hpres
        hpkern hpused h.tableKern h.tableUsed h.newKern h.kernUsed
        (lt_of_lt_of_le (Nat.succ_pos _) havail) h.slots
      obtain ⟨m1, hm1⟩ : ∃ m1, m1 = m.copied (entry m.mem t i / 4096) k t' i
        (entry m.mem t i % 4096) := ⟨_, rfl⟩
      rw [← hm1] at hstep
      have h1 : m1.Cloning so sn t t' := hm1 ▸ h.copied hi hfree _ _
      have hkt : t ≠ k := fun heq => h.tableUsed (heq ▸ hfree)
      have hkt' : t' ≠ k := fun heq => h.newUsed (heq ▸ hfree)
      have hk : k < 2 ^ 20 := lt_of_lt_of_le hlt m.frames.mmLimit_le
      have hframes : m1.frames = m.frames.clr k 1 := by rw [hm1]; rfl
      have hold : ∀ j < 1024, entry m1.mem t j = entry m.mem t j := fun j hj =>
        hm1 ▸ entry_copied hi hj h.apart hkt
      have hnew : ∀ j < 1024, entry m1.mem t' j =
          if j = i then k * 4096 + entry m.mem t i % 4096 else entry m.mem t' j := by
        intro j hj
        rw [hm1, copied, entry_writeWord (by omega) hi hj, entry_writePage_off hkt' hj]
        simp
      have hmem1 : ∀ x, x / 4096 ≠ t' → x / 4096 ≠ k → m1.mem x = m.mem x := fun x ht' hk =>
        hm1 ▸ mem_copied hi ht' hk
      have hpage : ∀ o < 4096, m1.mem (k * 4096 + o) =
          m.mem (entry m.mem t i / 4096 * 4096 + o) := by
        intro o ho
        rw [hm1, copied, mem_writeWord_off hi (by omega), mem_writePage, if_pos (by omega)]
        congr 1
        omega
      have hlist := presentFrom_congr hold (show i + 1 + rounds ≤ 1024 by omega)
      obtain ⟨g, m', hret, htook, hpd, hkern, hmem, hbefore, hclone⟩ := ih h1
        (show i + 1 + rounds ≤ 1024 by omega)
        (fun j hle hlt => by rw [hnew j (by omega), if_neg (by omega), hzero j (by omega) (by omega)])
        (by
          have := Frames.available_clr hfree hlt
          rw [hlist, hframes]
          rw [length_cons] at havail
          omega)
      rw [hlist] at htook hmem
      have hother : ∀ j, i + 1 ≤ j → update g i k j = g j := fun j hj =>
        update_of_ne (by omega) _ _
      have hmap : (i :: presentFrom m.mem t (i + 1) rounds).map (update g i k) =
          [k] ++ (presentFrom m.mem t (i + 1) rounds).map g := by
        rw [map_cons, update_self, singleton_append]
        congr 1
        apply map_congr_left
        intro j hj
        exact hother j (mem_presentFrom.mp hj).1.1
      have hknew : k ∉ (presentFrom m.mem t (i + 1) rounds).map g := by
        intro hmem
        have := (htook.free k hmem).1
        rw [hframes, Frames.free_clr] at this
        omega
      refine ⟨update g i k, m', hstep.trans hret, ?_, ?_, ?_, ?_, ?_, ?_, ?_⟩
      · rw [hmap]
        exact (Frames.took_clr hfree hlt).append (hframes ▸ htook)
      · rw [hpd, hm1]
        rfl
      · rw [hkern, hm1]
        rfl
      · intro x hxt' hx
        rw [hmap, mem_append, not_or, mem_singleton] at hx
        rw [hmem x hxt' hx.2, hmem1 x hxt' hx.1]
      · intro j hj
        rw [hbefore j (by omega), hnew j (by omega), if_neg (by omega)]
      · intro j hle hlt
        by_cases hji : j = i
        · rw [hji, if_pos hpres, update_self, hbefore i (by omega), hnew i hi, if_pos rfl]
        · rw [hother j (by omega), ← hold j (by omega)]
          exact hclone.entries j (by omega) (by omega)
      · intro j hle hlt hpres' o ho
        by_cases hji : j = i
        · rw [hji, update_self, hmem _ (by omega) (by rwa [show (k * 4096 + o) / 4096 = k by omega]),
            hpage o ho]
        · have hpages := h.pages j (by omega) hpres'
          have hkj : entry m.mem t j / 4096 ≠ k := fun heq => hpages.2.1 (heq ▸ hfree)
          rw [hother j (by omega), ← hmem1 _ (by omega) (by omega), ← hold j (by omega)]
          exact hclone.pages j (by omega) (by omega) (by rwa [hold j (by omega)]) o ho
    · rw [presentFrom_succ, if_neg hpres] at havail ⊢
      rw [cloneEntries, load32_page h.old hi, ok_bind, if_neg hpres]
      obtain ⟨g, m', hret, htook, hpd, hkern, hmem, hbefore, hclone⟩ := ih h (by omega)
        (fun j hle hlt => hzero j (by omega) (by omega)) havail
      refine ⟨g, m', hret, htook, hpd, hkern, hmem, fun j hj => hbefore j (by omega), ?_, ?_⟩
      · intro j hle hlt
        by_cases hji : j = i
        · rw [hji, if_neg hpres, hbefore i (by omega), hzero i (by omega) (by omega)]
        · exact hclone.entries j (by omega) (by omega)
      · intro j hle hlt hpres'
        have hji : j ≠ i := fun heq => hpres (heq ▸ hpres')
        exact hclone.pages j (by omega) (by omega) hpres'

theorem shiftLeft_ne_noFrame (k : Nat) : k <<< 12 ≠ noFrame := by
  rw [Nat.shiftLeft_eq, noFrame]
  omega

theorem clonePageTable_spec (tablePa : Nat) (hold : m.Maps so t) (ht : m.Owned t)
    (hkern : ¬m.frames.Free m.kernFrame)
    (hpages : ∀ j < 1024, Present (entry m.mem t j) → m.Owned (entry m.mem t j / 4096))
    (hslots : 3 ≤ m.freeSlots.card)
    (havail : (presentFrom m.mem t 0 1024).length + 1 ≤ m.frames.available) :
    ∃ t' sn g m', m.clonePageTable ⟨tablePa, pageAddress so⟩ =
        .ok (⟨t' <<< 12, pageAddress sn⟩, m') ∧
      m.frames.Took m'.frames (t' :: (presentFrom m.mem t 0 1024).map g) ∧
      m'.pdFrame = m.pdFrame ∧ m'.kernFrame = m.kernFrame ∧ sn ∈ m.freeSlots ∧
      (∀ s < 1024, m'.slot s = if s = sn then t' * 4096 + 3 else m.slot s) ∧
      (∀ x, x / 4096 ≠ m.kernFrame → x / 4096 ∉ t' :: (presentFrom m.mem t 0 1024).map g →
        m'.mem x = m.mem x) ∧
      EntriesCloned m.mem m'.mem t t' 0 1024 g := by
  obtain ⟨t', sn, m0, m1, halloc, hmap, hmemset, hnew⟩ := newPage_spec hkern
    (show 0 < m.frames.available by omega) (by omega)
  have hentry : ∀ j < 1024, entry m1.mem t j = entry m.mem t j := fun j => hnew.entry_eq ht
  have hlist := presentFrom_congr hentry (show 0 + 1024 ≤ 1024 by omega)
  have hcard := hnew.card_freeSlots
  have hcloning : m1.Cloning so sn t t' := by
    have ht1 := hnew.owned ht
    refine ⟨hnew.keeps hold, hnew.maps, hnew.ne ht.2, ht1.1, ht1.2, hnew.kernFrame ▸ hnew.kern,
      hnew.used, hnew.kernFrame ▸ hnew.stillUsed hkern, ?_, by omega⟩
    intro j hj
    rw [hentry j hj]
    intro hpres
    have hp := hpages j hj hpres
    exact ⟨(hnew.owned hp).1, (hnew.owned hp).2, hnew.ne hp.2⟩
  obtain ⟨g, m', hret, htook, hpd, hkern', hmem, -, hclone⟩ := cloneEntries_spec hcloning
    (show 0 + 1024 ≤ 1024 by omega) (fun j _ hj => hnew.entry_zero (by omega)) (by
      have := hnew.available
      rw [hlist]
      omega)
  rw [hlist] at htook hmem
  have hdisj : ∀ f, ¬m.frames.Free f → f ∉ (presentFrom m.mem t 0 1024).map g :=
    fun f hf hf' => hnew.stillUsed hf (htook.free f hf').1
  refine ⟨t', sn, g, m', ?_, hnew.took.append htook, hpd.trans hnew.pdFrame,
    hkern'.trans hnew.kernFrame, hnew.slotFree, ?_, ?_, ?_⟩
  · rw [clonePageTable, halloc, ok_bind]
    dsimp only
    rw [if_neg (shiftLeft_ne_noFrame t'), hmap]
    rw [if_neg (pageAddress_ne_null sn), hmemset, ok_bind, hret, ok_bind]
    rfl
  · intro s hs
    rw [← hnew.slots s hs, slot, slot, hkern', hnew.kernFrame]
    apply entry_congr _ hs
    intro x hx
    exact hmem x (hx ▸ hnew.kern.symm) (hx ▸ hdisj _ hkern)
  · intro x hx hx'
    rw [mem_cons, not_or] at hx'
    rw [hmem x hx'.1 hx'.2, hnew.mem x hx hx'.1]
  · apply hclone.source hentry
    intro j hj hpres o ho
    have hp := hpages j hj hpres
    have hne := hnew.ne hp.2
    have hkern := hp.1
    exact hnew.mem _ (by omega) (by omega)

theorem cloneTable_round (ht : m.Owned t) (ht20 : t < 2 ^ 20)
    (hkern : ¬m.frames.Free m.kernFrame)
    (hpages : ∀ j < 1024, Present (entry m.mem t j) → m.Owned (entry m.mem t j / 4096))
    (hslots : 4 ≤ m.freeSlots.card)
    (havail : (presentFrom m.mem t 0 1024).length + 1 ≤ m.frames.available) :
    ∃ t' g a sn m1 m2 m', m.mapVirtualPage ((t <<< 12) ||| 3) = (pageAddress a, m1) ∧
      m1.clonePageTable ⟨t <<< 12, pageAddress a⟩ = .ok (⟨t' <<< 12, pageAddress sn⟩, m2) ∧
      (m2.unmapVirtualPage (pageAddress a)).unmapVirtualPage (pageAddress sn) = m' ∧
      m.frames.Took m'.frames (t' :: (presentFrom m.mem t 0 1024).map g) ∧
      m'.pdFrame = m.pdFrame ∧ m'.kernFrame = m.kernFrame ∧
      (∀ x, x / 4096 ∉ t' :: (presentFrom m.mem t 0 1024).map g → m'.mem x = m.mem x) ∧
      EntriesCloned m.mem m'.mem t t' 0 1024 g := by
  obtain ⟨a, ha, hmap, hmaps⟩ := m.mapVirtualPage_frame ht20 (by omega)
  have ha' := (mem_freeSlots.mp ha).1
  obtain ⟨m1, hm1⟩ : ∃ m1, m1 = m.setSlot a (t * 4096 + 3) := ⟨_, rfl⟩
  rw [← hm1] at hmap hmaps
  have hkern1 : m1.kernFrame = m.kernFrame := by simp [hm1]
  have hframes1 : m1.frames = m.frames := by simp [hm1]
  have howned : ∀ {f}, m.Owned f → m1.Owned f := by
    intro f hf
    rwa [Owned, hkern1, hframes1]
  have hmem1 : ∀ x, x / 4096 ≠ m.kernFrame → m1.mem x = m.mem x := fun x hx =>
    hm1 ▸ mem_setSlot ha' hx
  have hentry1 : ∀ j < 1024, entry m1.mem t j = entry m.mem t j := fun j hj =>
    entry_congr (fun x hx => hmem1 x (hx ▸ ht.1)) hj
  have hlist := presentFrom_congr hentry1 (show 0 + 1024 ≤ 1024 by omega)
  have hfree1 : m1.freeSlots = m.freeSlots.erase a := hm1 ▸ freeSlots_setSlot ha' (by omega) (by omega)
  obtain ⟨t', sn, g, m2, hret, htook, hpd, hkern2, hsn, hslots2, hmem2, hclone⟩ :=
    clonePageTable_spec (t <<< 12) hmaps (howned ht) (by rwa [hkern1, hframes1])
      (fun j hj => by
        rw [hentry1 j hj]
        exact fun hpres => howned (hpages j hj hpres))
      (by
        rw [hfree1, Finset.card_erase_of_mem ha]
        omega)
      (by rwa [hlist, hframes1])
  rw [hlist] at htook hmem2
  rw [hframes1] at htook
  rw [hkern1] at hmem2 hkern2
  rw [hfree1, Finset.mem_erase, mem_freeSlots] at hsn
  obtain ⟨hsna, hsn', hsnzero⟩ := hsn
  have hkernel : m.kernFrame ∉ t' :: (presentFrom m.mem t 0 1024).map g :=
    fun hmem => hkern (htook.free _ hmem).1
  have hoff : ∀ x, x / 4096 ≠ m.kernFrame → ((m2.setSlot a 0).setSlot sn 0).mem x = m2.mem x := by
    intro x hx
    rw [mem_setSlot hsn' (by simpa [hkern2] using hx), mem_setSlot ha' (by simpa [hkern2] using hx)]
  refine ⟨t', g, a, sn, m1, m2, (m2.setSlot a 0).setSlot sn 0, hmap, hret, ?_, by simpa using htook,
    by simp [hpd, hm1], by simp [hkern2], ?_, ?_⟩
  · rw [unmapVirtualPage_page ha', unmapVirtualPage_page hsn']
  · intro x hx
    by_cases hxkern : x / 4096 = m.kernFrame
    · apply bytes_of_entries _ hxkern
      intro j hj
      have hslot : ((m2.setSlot a 0).setSlot sn 0).slot j = m.slot j := by
        rw [slot_setSlot (by omega) hsn' hj, slot_setSlot (by omega) ha' hj, hslots2 j hj, hm1,
          slot_setSlot (by omega) ha' hj]
        by_cases hjs : j = sn
        · rw [if_pos hjs, hjs, hsnzero]
        · by_cases hja : j = a
          · rw [if_neg hjs, if_pos hja, hja, (mem_freeSlots.mp ha).2]
          · rw [if_neg hjs, if_neg hja, if_neg hjs, if_neg hja]
      rw [slot, setSlot_kernFrame, setSlot_kernFrame, hkern2] at hslot
      exact hslot
    · rw [hoff x hxkern, hmem2 x hxkern hx, hmem1 x hxkern]
  · have hclone' : EntriesCloned m.mem m2.mem t t' 0 1024 g := by
      apply hclone.source hentry1
      intro j hj hpres o ho
      have hp := (hpages j hj hpres).1
      exact hmem1 _ (by omega)
    apply hclone'.target
    intro x hx
    exact hoff x fun heq => hkernel (heq ▸ hx)

def Private (i : Nat) : Prop := ¬(pgdirKernelBegin ≤ i ∧ i ≠ pgdirKernelStack)

instance (i : Nat) : Decidable (Private i) := inferInstanceAs (Decidable ¬_)

/-- The address space of directory `d`: what is not shared is used, is not the
kernel's page table, and has no 4 MiB pages. -/
structure Space (m : Machine) (d : Nat) : Prop where
  dir : m.Owned d
  big : ∀ i < 1024, Private i → Present (entry m.mem d i) → ¬BigPage (entry m.mem d i)
  tables : ∀ i < 1024, Private i → Present (entry m.mem d i) → m.Owned (entry m.mem d i / 4096)
  pages : ∀ i < 1024, Private i → Present (entry m.mem d i) →
    ∀ j < 1024, Present (entry m.mem (entry m.mem d i / 4096) j) →
      m.Owned (entry m.mem (entry m.mem d i / 4096) j / 4096)

def tablesBelow (mem : Nat → UInt8) (d n : Nat) : List Nat :=
  (List.range n).filter fun i => Private i ∧ Present (entry mem d i)

def pagesOf (mem : Nat → UInt8) (d i : Nat) : List Nat :=
  presentFrom mem (entry mem d i / 4096) 0 1024

def newFrames (mem : Nat → UInt8) (d n : Nat) (tb : Nat → Nat) (g : Nat → Nat → Nat) : List Nat :=
  (tablesBelow mem d n).flatMap fun i => tb i :: (pagesOf mem d i).map (g i)

/-- The first `n` entries of directory `d` are cloned to directory `c`, which page
`sc` shows.  `m0` is the state before. -/
structure TablesCloned (m0 m : Machine) (d c sc n : Nat) (tb : Nat → Nat) (g : Nat → Nat → Nat) :
    Prop where
  took : m0.frames.Took m.frames (c :: newFrames m0.mem d n tb g)
  pdFrame : m.pdFrame = m0.pdFrame
  kernFrame : m.kernFrame = m0.kernFrame
  slots : ∀ s < 1024, m.slot s = if s = sc then c * 4096 + 3 else m0.slot s
  mem : ∀ x, x / 4096 ≠ m0.kernFrame → x / 4096 ∉ c :: newFrames m0.mem d n tb g →
    m.mem x = m0.mem x
  entries : ∀ j < 1024, entry m.mem c j =
    if j < n ∧ Present (entry m0.mem d j) then
      if Private j then tb j * 4096 + entry m0.mem d j % 4096 else entry m0.mem d j
    else 0
  tables : ∀ j < n, Private j → Present (entry m0.mem d j) →
    EntriesCloned m0.mem m.mem (entry m0.mem d j / 4096) (tb j) 0 1024 (g j)

section Directory

variable {mem : Nat → UInt8} {d c sd sc n : Nat} {tb : Nat → Nat} {g : Nat → Nat → Nat}
  {m0 : Machine}

theorem tablesBelow_succ : tablesBelow mem d (n + 1) =
    if Private n ∧ Present (entry mem d n) then tablesBelow mem d n ++ [n]
    else tablesBelow mem d n := by
  rw [tablesBelow, range_succ, filter_append]
  split
  · rename_i h
    rw [filter_singleton, decide_eq_true h]
    rfl
  · rename_i h
    rw [filter_singleton, decide_eq_false h]
    exact append_nil _

theorem mem_tablesBelow :
    i ∈ tablesBelow mem d n ↔ i < n ∧ Private i ∧ Present (entry mem d i) := by
  rw [tablesBelow, mem_filter, mem_range, decide_eq_true_eq]

theorem tablesBelow_congr {mem' : Nat → UInt8}
    (h : ∀ i < n, Private i → (Present (entry mem' c i) ↔ Present (entry mem d i))) :
    tablesBelow mem' c n = tablesBelow mem d n := by
  apply filter_congr
  intro i hi
  apply decide_eq_decide.mpr
  apply and_congr_right
  exact h i (mem_range.mp hi)

theorem newFrames_congr {mem' : Nat → UInt8} {tb' : Nat → Nat} {g' : Nat → Nat → Nat}
    (htables : tablesBelow mem' c n = tablesBelow mem d n)
    (htb : ∀ i ∈ tablesBelow mem d n, tb' i = tb i)
    (hg : ∀ i ∈ tablesBelow mem d n, (pagesOf mem' c i).map (g' i) = (pagesOf mem d i).map (g i)) :
    newFrames mem' c n tb' g' = newFrames mem d n tb g := by
  rw [newFrames, htables, newFrames]
  apply flatMap_congr
  intro i hi
  rw [htb i hi, hg i hi]

theorem newFrames_skip (h : ¬(Private n ∧ Present (entry mem d n))) :
    newFrames mem d (n + 1) tb g = newFrames mem d n tb g := by
  rw [newFrames, tablesBelow_succ, if_neg h, newFrames]

theorem newFrames_table (h : Private n ∧ Present (entry mem d n)) (t' : Nat) (g' : Nat → Nat) :
    newFrames mem d (n + 1) (update tb n t') (update g n g') =
      newFrames mem d n tb g ++ (t' :: (pagesOf mem d n).map g') := by
  rw [newFrames, tablesBelow_succ, if_pos h, flatMap_append, newFrames, flatMap_singleton,
    update_self, update_self]
  congr 1
  apply flatMap_congr
  intro i hi
  have hne : i ≠ n := Nat.ne_of_lt (mem_tablesBelow.mp hi).1
  rw [update_of_ne hne, update_of_ne hne]

def cost (mem : Nat → UInt8) (d n : Nat) : Nat :=
  ((tablesBelow mem d n).map fun i => (pagesOf mem d i).length + 1).sum

theorem length_newFrames : (newFrames mem d n tb g).length = cost mem d n := by
  rw [newFrames, length_flatMap, cost]
  simp

theorem cost_succ : cost mem d (n + 1) =
    cost mem d n + if Private n ∧ Present (entry mem d n) then (pagesOf mem d n).length + 1 else 0 := by
  rw [cost, tablesBelow_succ]
  split
  · rw [map_append, sum_append, cost]
    simp
  · rfl

theorem cost_le (h : n ≤ k) : cost mem d n ≤ cost mem d k := by
  induction k with
  | zero =>
    rw [Nat.le_zero.mp h]
  | succ k ih =>
    rw [cost_succ]
    by_cases hk : n = k + 1
    · rw [hk, cost_succ]
    · omega

namespace TablesCloned

variable (h : TablesCloned m0 m d c sc n tb g)

include h

theorem notTaken (hf : ¬m0.frames.Free f) : f ∉ c :: newFrames m0.mem d n tb g :=
  fun hmem => hf (h.took.free f hmem).1

theorem owned (hf : m0.Owned f) : m.Owned f :=
  ⟨h.kernFrame ▸ hf.1, fun hfree => hf.2 ((h.took.free_iff f).mp hfree).1⟩

theorem mem_eq (hf : m0.Owned f) {x : Nat} (hx : x / 4096 = f) : m.mem x = m0.mem x :=
  h.mem x (hx ▸ hf.1) (hx ▸ h.notTaken hf.2)

theorem entry_eq (hf : m0.Owned f) (hj : j < 1024) : entry m.mem f j = entry m0.mem f j :=
  entry_congr (fun _ hx => h.mem_eq hf hx) hj

theorem free : m0.frames.Free c ∧ c < m0.frames.mmLimit := h.took.free c mem_cons_self

theorem used : ¬m.frames.Free c := fun hfree =>
  ((h.took.free_iff c).mp hfree).2 mem_cons_self

theorem mapsDir (hsc : sc ∈ m0.freeSlots) (hmaps : m0.Maps sd f) : m.Maps sd f := by
  apply hmaps.congr
  rw [h.slots sd hmaps.1, if_neg (hmaps.not_free hsc)]

theorem mapsNew (hsc : sc ∈ m0.freeSlots) : m.Maps sc c := by
  have hsc' := (mem_freeSlots.mp hsc).1
  rw [Maps, h.slots sc hsc', if_pos rfl, Present]
  exact ⟨hsc', by omega, by omega⟩

theorem card_freeSlots (hsc : sc ∈ m0.freeSlots) : m.freeSlots.card + 1 = m0.freeSlots.card := by
  rw [freeSlots_of_slots (Nat.succ_ne_zero _) h.slots, Finset.card_erase_add_one hsc]

theorem ne_kern (hkern : ¬m0.frames.Free m0.kernFrame) : c ≠ m.kernFrame := by
  rw [h.kernFrame]
  exact fun heq => hkern (heq ▸ h.free.1)

omit h in
theorem subset_newFrames (hj : j < n) (hpriv : Private j) (hpres : Present (entry mem d j)) :
    tb j :: (pagesOf mem d j).map (g j) ⊆ newFrames mem d n tb g := fun _ hx =>
  mem_flatMap.mpr ⟨j, mem_tablesBelow.mpr ⟨hj, hpriv, hpres⟩, hx⟩

theorem skip (hout : ¬Present (entry m0.mem d n)) : TablesCloned m0 m d c sc (n + 1) tb g := by
  have hframes : newFrames m0.mem d (n + 1) tb g = newFrames m0.mem d n tb g :=
    newFrames_skip fun hn => hout hn.2
  have hne : ∀ {j}, Present (entry m0.mem d j) → j ≠ n := fun hpres heq =>
    hout (heq ▸ hpres)
  refine ⟨hframes ▸ h.took, h.pdFrame, h.kernFrame, h.slots, hframes ▸ h.mem, ?_, ?_⟩
  · intro j hj
    rw [h.entries j hj]
    congr 1
    apply propext
    constructor
    · exact fun hj' => ⟨by omega, hj'.2⟩
    · exact fun hj' => ⟨by have := hne hj'.2; omega, hj'.2⟩
  · intro j hj hpriv hpres
    exact h.tables j (by have := hne hpres; omega) hpriv hpres

theorem share (hkern : ¬m0.frames.Free m0.kernFrame) (hn : n < 1024) (hshared : ¬Private n)
    (hpres : Present (entry m0.mem d n)) :
    TablesCloned m0 (m.writeWord (c * 4096 + 4 * n) (entry m0.mem d n)) d c sc (n + 1) tb g := by
  have hframes : newFrames m0.mem d (n + 1) tb g = newFrames m0.mem d n tb g :=
    newFrames_skip fun hn => hshared hn.1
  have hc := h.ne_kern hkern
  refine ⟨hframes ▸ h.took, h.pdFrame, h.kernFrame, ?_, ?_, ?_, ?_⟩
  · intro s hs
    rw [slot_writeWord hc hn hs, h.slots s hs]
  · intro x hx hx'
    rw [hframes] at hx'
    rw [mem_writeWord_off hn fun heq => hx' (heq ▸ mem_cons_self), h.mem x hx hx']
  · intro j hj
    rw [entry_writeWord (entry_lt _ _ _) hn hj]
    by_cases hjn : j = n
    · rw [if_pos ⟨rfl, hjn⟩, hjn, if_pos ⟨by omega, hpres⟩, if_neg hshared]
    · rw [if_neg fun heq => hjn heq.2, h.entries j hj]
      congr 1
      apply propext
      apply and_congr_left'
      omega
  · intro j hj hpriv hpres'
    have hjn : j ≠ n := fun heq => hshared (heq ▸ hpriv)
    have hj' : j < n := by omega
    apply (h.tables j hj' hpriv hpres').target
    intro x hx
    apply mem_writeWord_off hn
    rintro heq
    exact (nodup_cons.mp h.took.nodup).1 (subset_newFrames hj' hpriv hpres' (heq ▸ hx))

theorem extend {g' : Nat → Nat} (hkern : ¬m0.frames.Free m0.kernFrame) (hn : n < 1024)
    (hpriv : Private n) (hpres : Present (entry m0.mem d n))
    (htook : m.frames.Took m'.frames (t' :: (pagesOf m0.mem d n).map g'))
    (hpd : m'.pdFrame = m.pdFrame) (hkernFrame : m'.kernFrame = m.kernFrame)
    (hmem : ∀ x, x / 4096 ∉ t' :: (pagesOf m0.mem d n).map g' → m'.mem x = m.mem x)
    (hclone : EntriesCloned m0.mem m'.mem (entry m0.mem d n / 4096) t' 0 1024 g') :
    TablesCloned m0 (m'.writeWord (c * 4096 + 4 * n) (t' * 4096 + entry m0.mem d n % 4096)) d c sc
      (n + 1) (update tb n t') (update g n g') := by
  have hframes : newFrames m0.mem d (n + 1) (update tb n t') (update g n g') =
      newFrames m0.mem d n tb g ++ (t' :: (pagesOf m0.mem d n).map g') :=
    newFrames_table ⟨hpriv, hpres⟩ t' g'
  have hc := h.ne_kern hkern
  have hcnew : c ∉ t' :: (pagesOf m0.mem d n).map g' := fun hmem => h.used (htook.free c hmem).1
  have hknew : m.kernFrame ∉ t' :: (pagesOf m0.mem d n).map g' := by
    intro hmem
    have := (h.took.free_iff _).mp (htook.free _ hmem).1
    exact hkern (h.kernFrame ▸ this.1)
  have ht' : t' < 2 ^ 20 := lt_of_lt_of_le (htook.free t' mem_cons_self).2
    m.frames.mmLimit_le
  refine ⟨?_, hpd.trans h.pdFrame, hkernFrame.trans h.kernFrame, ?_, ?_, ?_, ?_⟩
  · rw [hframes, ← cons_append]
    exact h.took.append htook
  · intro s hs
    rw [slot_writeWord (hkernFrame ▸ hc) hn hs, ← h.slots s hs, slot, slot, hkernFrame]
    apply entry_congr _ hs
    intro x hx
    exact hmem x (hx ▸ hknew)
  · intro x hx hx'
    rw [hframes, ← cons_append, mem_append, not_or] at hx'
    rw [mem_writeWord_off hn fun heq => hx'.1 (heq ▸ mem_cons_self), hmem x hx'.2,
      h.mem x hx hx'.1]
  · intro j hj
    rw [entry_writeWord (by omega) hn hj]
    by_cases hjn : j = n
    · rw [if_pos ⟨rfl, hjn⟩, hjn, if_pos ⟨by omega, hpres⟩, if_pos hpriv, update_self]
    · rw [if_neg fun heq => hjn heq.2, update_of_ne hjn,
        entry_congr (fun x hx => hmem x (hx ▸ hcnew)) hj, h.entries j hj]
      congr 1
      apply propext
      apply and_congr_left'
      omega
  · intro j hj hpriv' hpres'
    by_cases hjn : j = n
    · subst hjn
      rw [update_self, update_self]
      apply hclone.target
      intro x hx
      apply mem_writeWord_off hn
      rintro heq
      exact hcnew (heq ▸ hx)
    · have hj' : j < n := by omega
      have hsub : tb j :: (pagesOf m0.mem d j).map (g j) ⊆ newFrames m0.mem d n tb g :=
        subset_newFrames hj' hpriv' hpres'
      rw [update_of_ne hjn, update_of_ne hjn]
      apply (h.tables j hj' hpriv' hpres').target
      intro x hx
      have hx' := hsub hx
      rw [mem_writeWord_off hn]
      · apply hmem
        intro hmem
        exact ((h.took.free_iff _).mp (htook.free _ hmem).1).2 (mem_cons_of_mem c hx')
      · rintro heq
        exact (nodup_cons.mp h.took.nodup).1 (heq ▸ hx')

end TablesCloned

theorem cloneTables_spec (h : TablesCloned m0 m d c sc n tb g) (hspace : m0.Space d)
    (hkern : ¬m0.frames.Free m0.kernFrame) (hsd : m0.Maps sd d) (hsc : sc ∈ m0.freeSlots)
    (hslots : 5 ≤ m0.freeSlots.card) (havail : cost m0.mem d 1024 + 1 ≤ m0.frames.available)
    (hrounds : n + rounds = 1024) :
    ∃ m' tb g, cloneTables (pageAddress sd) (pageAddress sc) rounds n m = .ok (true, m') ∧
      TablesCloned m0 m' d c sc 1024 tb g := by
  induction rounds generalizing n m tb g with
  | zero =>
    rw [add_zero] at hrounds
    exact ⟨m, tb, g, rfl, hrounds ▸ h⟩
  | succ rounds ih =>
    have hn : n < 1024 := by omega
    have hold := h.mapsDir hsc hsd
    have hnew := h.mapsNew hsc
    have hc := h.ne_kern hkern
    rw [cloneTables, load32_page hold hn, ok_bind, h.entry_eq hspace.dir hn]
    by_cases hpres : Present (entry m0.mem d n)
    · rw [if_pos hpres]
      by_cases hpriv : Private n
      · have ht := hspace.tables n hn hpriv hpres
        have hentry : ∀ j < 1024, entry m.mem (entry m0.mem d n / 4096) j =
            entry m0.mem (entry m0.mem d n / 4096) j := fun j hj => h.entry_eq ht hj
        have hlist : presentFrom m.mem (entry m0.mem d n / 4096) 0 1024 = pagesOf m0.mem d n :=
          presentFrom_congr hentry (by omega)
        have hlt := entry_lt m0.mem d n
        obtain ⟨t', g', a, sn, m1, m2, m', hmap, hclone, hunmap, htook, hpd, hkernFrame, hmem,
            hcloned⟩ := cloneTable_round (h.owned ht) (by omega)
          (fun hfree => hkern (h.kernFrame ▸ ((h.took.free_iff _).mp hfree).1))
          (fun j hj => by
            rw [hentry j hj]
            exact fun hpres' => h.owned (hspace.pages n hn hpriv hpres j hj hpres'))
          (by
            have := h.card_freeSlots hsc
            omega)
          (by
            have hused := h.took.available
            have hcost : cost m0.mem d (n + 1) = _ := cost_succ
            have hle : cost m0.mem d (n + 1) ≤ cost m0.mem d 1024 := cost_le (by omega)
            rw [if_pos ⟨hpriv, hpres⟩] at hcost
            rw [length_cons, length_newFrames] at hused
            rw [hlist]
            omega)
        rw [hlist] at htook hmem
        have hslot : ∀ s < 1024, m'.slot s = m.slot s := by
          intro s hs
          rw [slot, slot, hkernFrame]
          apply entry_congr _ hs
          intro x hx
          apply hmem
          intro hmem
          have hfree := (h.took.free_iff _).mp (htook.free _ hmem).1
          exact hkern (h.kernFrame ▸ hx ▸ hfree.1)
        have hdir : entry m'.mem d n = entry m0.mem d n := by
          rw [← h.entry_eq hspace.dir hn]
          apply entry_congr _ hn
          intro x hx
          exact hmem x fun hmem => (h.owned hspace.dir).2 (hx ▸ (htook.free _ hmem).1)
        have hcloned' := hcloned.source hentry fun j hj hpres' o ho =>
          h.mem_eq (hspace.pages n hn hpriv hpres j hj hpres') (by omega)
        have ht' : t' < 2 ^ 20 := lt_of_lt_of_le (htook.free t' mem_cons_self).2
          m.frames.mmLimit_le
        rw [if_neg hpriv, if_neg (hspace.big n hn hpriv hpres)]
        dsimp only
        rw [hmap]
        dsimp only
        rw [if_neg (pageAddress_ne_null a), hclone, ok_bind]
        dsimp only
        rw [if_neg (shiftLeft_ne_noFrame t'), hunmap, load32_page (hold.congr (hslot sd hold.1)) hn,
          ok_bind, hdir, storeEntry_page (hnew.congr (hslot sc hnew.1)) (hkernFrame ▸ hc) hn, ok_bind,
          Nat.shiftLeft_shiftRight, Nat.mod_eq_of_lt ht']
        exact ih (h.extend hkern hn hpriv hpres htook hpd hkernFrame hmem hcloned') (by omega)
      · rw [if_pos (not_not.mp hpriv), store32_page hnew hc hn, ok_bind]
        exact ih (h.share hkern hn hpriv hpres) (by omega)
    · rw [if_neg hpres]
      exact ih (h.skip hpres) (by omega)

theorem NewPage.tablesCloned (hnew : m.NewPage m' c sc) (d : Nat) :
    TablesCloned m m' d c sc 0 id fun _ => id := by
  refine ⟨hnew.took, hnew.pdFrame, hnew.kernFrame, hnew.slots, ?_, ?_, ?_⟩
  · intro x hx hx'
    exact hnew.mem x hx (ne_of_not_mem_cons hx')
  · intro j hj
    rw [hnew.entry_zero hj, if_neg (by omega)]
  · omega

theorem clonePageDirectory_spec {dirPa : Nat} (hspace : m.Space d)
    (hkern : ¬m.frames.Free m.kernFrame) (hsd : m.Maps sd d) (hslots : 5 ≤ m.freeSlots.card)
    (havail : cost m.mem d 1024 + 1 ≤ m.frames.available) :
    ∃ c sc tb g m', m.clonePageDirectory ⟨dirPa, pageAddress sd⟩ =
        .ok (⟨c <<< 12, pageAddress sc⟩, m') ∧
      sc ∈ m.freeSlots ∧ TablesCloned m m' d c sc 1024 tb g := by
  obtain ⟨c, sc, m0, m1, halloc, hmap, hmemset, hnew⟩ := newPage_spec hkern
    (show 0 < m.frames.available by omega) (by omega)
  obtain ⟨m', tb, g, hret, hclone⟩ := cloneTables_spec (hnew.tablesCloned d) hspace hkern hsd hnew.slotFree hslots
    havail (show 0 + 0x400 = 1024 by omega)
  refine ⟨c, sc, tb, g, m', ?_, hnew.slotFree, hclone⟩
  rw [clonePageDirectory, halloc, ok_bind]
  dsimp only
  rw [if_neg (shiftLeft_ne_noFrame c), hmap]
  dsimp only
  rw [if_neg (pageAddress_ne_null sc), hmemset, ok_bind, hret, ok_bind]
  rfl

/-- The page-table entry of page `j` below entry `i` of directory `d`, 0 without a table. -/
def pageEntry (mem : Nat → UInt8) (d i j : Nat) : Nat :=
  if Present (entry mem d i) then entry mem (entry mem d i / 4096) j else 0

def spaceFrames (mem : Nat → UInt8) (d : Nat) : List Nat :=
  d :: newFrames mem d 1024 (fun i => entry mem d i / 4096) fun i j => pageEntry mem d i j / 4096

/-- Directory `c`, shown at page `sc` of the kernel, is a copy of directory `d`. -/
structure ClonedSpace (m m' : Machine) (d c sc : Nat) : Prop where
  /-- Its frames are distinct, were free and are used by it alone. -/
  took : m.frames.Took m'.frames (spaceFrames m'.mem c)
  flags : ∀ i < 1024, Private i → Present (entry m.mem d i) →
    entry m'.mem c i % 4096 = entry m.mem d i % 4096
  pages : ∀ i < 1024, Private i → ∀ j < 1024, Present (pageEntry m.mem d i j) →
    pageEntry m'.mem c i j % 4096 = pageEntry m.mem d i j % 4096 ∧
    pageEntry m'.mem c i j / 4096 ∈ spaceFrames m'.mem c ∧
    ∀ o < 4096, m'.mem (pageEntry m'.mem c i j / 4096 * 4096 + o) =
      m.mem (pageEntry m.mem d i j / 4096 * 4096 + o)
  noPages : ∀ i < 1024, Private i → ∀ j < 1024, ¬Present (pageEntry m.mem d i j) →
    pageEntry m'.mem c i j = 0
  shared : ∀ i < 1024, ¬Private i → Present (entry m.mem d i) →
    entry m'.mem c i = entry m.mem d i
  nothing : ∀ i < 1024, ¬Present (entry m.mem d i) → entry m'.mem c i = 0
  /-- The parent, and whatever else was in use, is as before. -/
  unchanged : ∀ x, m.Owned (x / 4096) → m'.mem x = m.mem x
  slots : ∀ s < 1024, m'.slot s = if s = sc then c * 4096 + 3 else m.slot s
  pdFrame : m'.pdFrame = m.pdFrame
  kernFrame : m'.kernFrame = m.kernFrame

theorem present_congr {a b : Nat} (h : a % 4096 = b % 4096) : Present a ↔ Present b := by
  rw [Present, Present]
  omega

namespace TablesCloned

variable (h : TablesCloned m0 m d c sc 1024 tb g)

include h

theorem entry_private (hi : i < 1024) (hpriv : Private i) (hpres : Present (entry m0.mem d i)) :
    entry m.mem c i = tb i * 4096 + entry m0.mem d i % 4096 := by
  rw [h.entries i hi, if_pos ⟨hi, hpres⟩, if_pos hpriv]

theorem entry_absent (hi : i < 1024) (hout : ¬Present (entry m0.mem d i)) :
    entry m.mem c i = 0 := by
  rw [h.entries i hi, if_neg fun hi => hout hi.2]

theorem present_iff (hi : i < 1024) (hpriv : Private i) :
    Present (entry m.mem c i) ↔ Present (entry m0.mem d i) := by
  by_cases hpres : Present (entry m0.mem d i)
  · rw [h.entry_private hi hpriv hpres]
    exact present_congr (by omega)
  · rw [h.entry_absent hi hpres]
    exact iff_of_false (by decide) hpres

theorem pageEntry_eq (hi : i < 1024) (hpriv : Private i) (hj : j < 1024) :
    pageEntry m.mem c i j = if Present (pageEntry m0.mem d i j) then
      g i j * 4096 + pageEntry m0.mem d i j % 4096 else 0 := by
  by_cases hpres : Present (entry m0.mem d i)
  · have hentry := h.entry_private hi hpriv hpres
    have hpres' := (h.present_iff hi hpriv).mpr hpres
    have htable : entry m.mem c i / 4096 = tb i := by
      omega
    rw [pageEntry, if_pos hpres', htable, pageEntry, if_pos hpres,
      (h.tables i hi hpriv hpres).entries j (Nat.zero_le j) (by omega)]
  · have hzero : ¬Present 0 := by decide
    rw [pageEntry, h.entry_absent hi hpres, if_neg hzero, pageEntry, if_neg hpres,
      if_neg hzero]

theorem spaceFrames_eq : spaceFrames m.mem c = c :: newFrames m0.mem d 1024 tb g := by
  have hframes : newFrames m.mem c 1024 (fun i => entry m.mem c i / 4096)
      (fun i j => pageEntry m.mem c i j / 4096) = newFrames m0.mem d 1024 tb g := by
    apply newFrames_congr (tablesBelow_congr fun i hi hpriv => h.present_iff hi hpriv)
    · intro i hi
      obtain ⟨hi, hpriv, hpres⟩ := mem_tablesBelow.mp hi
      rw [h.entry_private hi hpriv hpres]
      omega
    · intro i hi
      obtain ⟨hi, hpriv, hpres⟩ := mem_tablesBelow.mp hi
      have hentry : ∀ j, pageEntry m0.mem d i j = entry m0.mem (entry m0.mem d i / 4096) j :=
        fun j => if_pos hpres
      have hentry' : ∀ j, pageEntry m.mem c i j = entry m.mem (entry m.mem c i / 4096) j :=
        fun j => if_pos ((h.present_iff hi hpriv).mpr hpres)
      have hpages : pagesOf m.mem c i = pagesOf m0.mem d i := by
        apply presentFrom_of_iff
        intro j hj
        rw [← hentry, ← hentry', h.pageEntry_eq hi hpriv (by omega)]
        split
        · exact present_congr (by omega)
        · rename_i hout
          exact iff_of_false (by decide) hout
      rw [hpages]
      apply map_congr_left
      intro j hj
      obtain ⟨⟨_, hj⟩, hpres'⟩ := mem_presentFrom.mp hj
      rw [← hentry] at hpres'
      rw [h.pageEntry_eq hi hpriv (by omega), if_pos hpres']
      omega
  rw [spaceFrames, hframes]

theorem clonedSpace : ClonedSpace m0 m d c sc := by
  refine ⟨h.spaceFrames_eq ▸ h.took, ?_, ?_, ?_, ?_, ?_, ?_, h.slots, h.pdFrame, h.kernFrame⟩
  · intro i hi hpriv hpres
    rw [h.entry_private hi hpriv hpres]
    omega
  · intro i hi hpriv j hj hpres
    have hentry := h.pageEntry_eq hi hpriv hj
    rw [if_pos hpres] at hentry
    have hframe : pageEntry m.mem c i j / 4096 = g i j := by omega
    have hdir : Present (entry m0.mem d i) := by
      by_contra hout
      rw [pageEntry, if_neg hout] at hpres
      exact absurd hpres (by decide)
    have hpage : pageEntry m0.mem d i j = entry m0.mem (entry m0.mem d i / 4096) j := if_pos hdir
    have hmem : j ∈ pagesOf m0.mem d i :=
      mem_presentFrom.mpr ⟨⟨Nat.zero_le j, by omega⟩, hpage ▸ hpres⟩
    refine ⟨by omega, ?_, ?_⟩
    · rw [hframe, h.spaceFrames_eq]
      apply mem_cons_of_mem
      apply subset_newFrames hi hpriv hdir
      exact mem_cons_of_mem _ (mem_map_of_mem hmem)
    · intro o ho
      rw [hframe, hpage]
      exact (h.tables i hi hpriv hdir).pages j (Nat.zero_le j) (by omega) (hpage ▸ hpres) o ho
  · intro i hi hpriv j hj hout
    rw [h.pageEntry_eq hi hpriv hj, if_neg hout]
  · intro i hi hshared hpres
    rw [h.entries i hi, if_pos ⟨hi, hpres⟩, if_neg hshared]
  · exact fun i hi hout => h.entry_absent hi hout
  · exact fun x hx => h.mem_eq hx rfl

end TablesCloned

end Directory

/-- With enough frames and kernel pages, the result is a copy of the address space in frames that
were free, and everything else is as it was. -/
theorem address_space_cloned (m : Machine) (d sd : Nat) (hspace : m.Space d)
    (hkern : ¬m.frames.Free m.kernFrame) (hmaps : m.Maps sd d) (hslots : 5 ≤ m.freeSlots.card)
    (hframes : cost m.mem d 1024 + 1 ≤ m.frames.available) :
    ∃ c sc m', m.clonePageDirectory ⟨d <<< 12, pageAddress sd⟩ =
        .ok (⟨c <<< 12, pageAddress sc⟩, m') ∧
      sc ∈ m.freeSlots ∧ m.ClonedSpace m' d c sc := by
  obtain ⟨c, sc, tb, g, m', hret, hsc, hcloned⟩ :=
    clonePageDirectory_spec hspace hkern hmaps hslots hframes
  exact ⟨c, sc, m', hret, hsc, hcloned.clonedSpace⟩

/-- The kernel's page table in frame 1, the directory in frame 2, a table in frame 3 with a page
in frame 4. -/
def onePageWords (n : Nat) : Nat :=
  if n = 0x400 then 0x2003 else if n = 0x800 then 0x3007 else if n = 0xBFF then 0x1003
  else if n = 0xC08 then 0x4007 else if n = 0x1000 then 42 else 0

def onePage : Machine where
  frames := ⟨fun word => if word = 0 then 0xFFFFFFE0 else 0, 32, by decide⟩
  mem := ofWords onePageWords
  pdFrame := 2
  kernFrame := 1

theorem entry_onePage (f i : Nat) : entry onePage.mem f i = onePageWords (f * 1024 + i) := by
  apply entry_ofWords
  rw [onePageWords]
  split_ifs <;> omega

theorem onePage_table (hi : i < 1024) (hpriv : Private i) (h : Present (entry onePage.mem 2 i)) :
    i = 0 := by
  rw [Private, pgdirKernelBegin, pgdirKernelStack] at hpriv
  rw [entry_onePage, onePageWords, Present] at h
  split_ifs at h <;> omega

theorem onePage_page (hj : j < 1024) (h : Present (entry onePage.mem 3 j)) : j = 8 := by
  rw [entry_onePage, onePageWords, Present] at h
  split_ifs at h <;> omega

theorem onePage_space : onePage.Space 2 := by
  refine ⟨by decide, ?_, ?_, ?_⟩
  · intro i hi hpriv hpres
    rw [onePage_table hi hpriv hpres, entry_onePage]
    decide
  · intro i hi hpriv hpres
    rw [onePage_table hi hpriv hpres, entry_onePage]
    decide
  · intro i hi hpriv hpres j hj
    have htable : entry onePage.mem 2 0 / 4096 = 3 := by
      rw [entry_onePage]
      decide
    rw [onePage_table hi hpriv hpres, htable]
    intro hpres'
    rw [onePage_page hj hpres', entry_onePage]
    decide

theorem onePage_freeSlots : 5 ≤ onePage.freeSlots.card := by
  have hsub : Finset.Icc 1 5 ⊆ onePage.freeSlots := by
    intro i hi
    rw [Finset.mem_Icc] at hi
    have hslot : onePage.slot i = onePageWords (1 * 1024 + i) := entry_onePage 1 i
    rw [mem_freeSlots, hslot, onePageWords]
    refine ⟨by omega, ?_⟩
    split_ifs <;> omega
  exact Finset.card_le_card hsub

theorem address_space_cloned_one_page :
    Present (pageEntry onePage.mem 2 0 8) ∧
    ∃ c sc m', onePage.clonePageDirectory ⟨2 <<< 12, pageAddress 0⟩ =
        .ok (⟨c <<< 12, pageAddress sc⟩, m') ∧
      sc ∈ onePage.freeSlots ∧ onePage.ClonedSpace m' 2 c sc :=
  ⟨by decide +kernel, address_space_cloned onePage 2 0 onePage_space (by decide) (by decide +kernel)
    onePage_freeSlots (by decide +kernel)⟩

end Machine

end Quest.Mem
