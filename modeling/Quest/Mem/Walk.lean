import Quest.Mem.Clone

/-! Page directories that the kernel walks and extends itself: `pgdir_get_phys_addr` and
`map_pgdir_entry`. -/
namespace Quest.Mem

open Quest.Lib Memory

structure StartedPgtbl extends Pgtbl where
  startingVa : Nat

def pgdirNumEntries : Nat := 0x400

namespace Machine

def dirEntry (m : Machine) (dir : Pgdir) (i : Nat) : Except Fault Nat :=
  if i < pgdirNumEntries then m.load32 (dir.dirVa + 4 * i) else .error .outOfBounds

/-- The loop of `map_pgdir_entry`.  After entry 0 the unsigned index is the largest one. -/
def freeEntryDown (m : Machine) (dir : Pgdir) : Nat → Except Fault Nat
  | 0 => do
    let e ← m.dirEntry dir 0
    if Present e then m.dirEntry dir (2 ^ 32 - 1) else .ok 0
  | i + 1 => do
    let e ← m.dirEntry dir (i + 1)
    if Present e then m.freeEntryDown dir i else .ok (i + 1)

def freeEntryUp (m : Machine) (dir : Pgdir) : Nat → Nat → Except Fault (Option Nat)
  | 0, _ => .ok none
  | rounds + 1, i => do
    let e ← m.dirEntry dir i
    if Present e then m.freeEntryUp dir rounds (i + 1) else .ok (some i)

def mapPgdirEntry (m : Machine) (dir : Pgdir) (fromTop : Bool) (e : Nat) (tbl : StartedPgtbl) :
    Except Fault (Bool × StartedPgtbl × Machine) := do
  let tbl := { tbl with tablePa := (e / 4096 % 2 ^ 20) <<< 12, tableVa := 0 }
  let free ← if fromTop then some <$> m.freeEntryDown dir pgdirNumEntries
    else m.freeEntryUp dir pgdirNumEntries 0
  match free with
  | some i => do
    let m ← m.store32 (dir.dirVa + 4 * i) e
    .ok (true, { tbl with startingVa := i <<< 22 }, m)
  | none => .ok (false, tbl, m)

def pgdirGetFrame (m : Machine) (dir : Pgdir) (va : Nat) : Except Fault (Nat × Machine) := do
  let e ← m.dirEntry dir (va / 2 ^ 22)
  if ¬Present e then
    .ok (noFrame, m)
  else if BigPage e then
    .ok ((e / 2 ^ 22) <<< 22, m)
  else
    let (table, m) := m.mapVirtualPage ((e / 4096) <<< 12 ||| 3)
    if table = 0 then
      .ok (noFrame, m)
    else do
      let p ← m.load32 (table + 4 * (va / 4096 % 1024))
      if Present p then
        .ok ((p / 4096) <<< 12, m.unmapVirtualPage table)
      else
        .ok (noFrame, m.unmapVirtualPage table)

def pgdirGetPhysAddr (m : Machine) (dir : Pgdir) (va : Nat) : Except Fault (Nat × Machine) := do
  let (frame, m) ← m.pgdirGetFrame dir (va / 4096 * 4096)
  if frame = noFrame then .ok (noFrame, m) else .ok ((frame + va % 4096) % 2 ^ 32, m)

variable {m : Machine} {s f i t va e value rounds : Nat} {dir : Pgdir}

theorem dirEntry_page (hmaps : m.Maps s f) (hdir : dir.dirVa = pageAddress s) (hi : i < 1024) :
    m.dirEntry dir i = .ok (entry m.mem f i) := by
  rw [dirEntry, if_pos (show i < pgdirNumEntries from hi), hdir, load32_page hmaps hi]

/-- The first entry that is not present, from the end where the search begins. -/
structure FirstAbsent (mem : Nat → UInt8) (f : Nat) (fromTop : Bool) (i : Nat) : Prop where
  lt : i < 1024
  absent : ¬Present (entry mem f i)
  before : ∀ j < 1024, (if fromTop then i < j else j < i) → Present (entry mem f j)

def EntryMapped (m : Machine) (f : Nat) (fromTop : Bool) (e : Nat) (tbl : StartedPgtbl)
    (r : Except Fault (Bool × StartedPgtbl × Machine)) : Prop :=
  (∃ i, FirstAbsent m.mem f fromTop i ∧
      r = .ok (true, ⟨⟨(e / 4096 % 2 ^ 20) <<< 12, 0⟩, i <<< 22⟩,
        m.writeWord (f * 4096 + 4 * i) e)) ∨
    ((∀ i < 1024, Present (entry m.mem f i)) ∧
      r = .ok (false, ⟨⟨(e / 4096 % 2 ^ 20) <<< 12, 0⟩, tbl.startingVa⟩, m))

theorem freeEntryUp_spec (dir : Pgdir) (hmaps : m.Maps s f) (hdir : dir.dirVa = pageAddress s)
    (hrounds : i + rounds = 1024) (hbefore : ∀ j < i, Present (entry m.mem f j)) :
    (∃ k, FirstAbsent m.mem f false k ∧ m.freeEntryUp dir rounds i = .ok (some k)) ∨
      ((∀ k < 1024, Present (entry m.mem f k)) ∧ m.freeEntryUp dir rounds i = .ok none) := by
  induction rounds generalizing i with
  | zero => exact .inr ⟨fun k hk => hbefore k (by omega), rfl⟩
  | succ rounds ih =>
    rw [freeEntryUp, dirEntry_page hmaps hdir (by omega), ok_bind]
    by_cases hpres : Present (entry m.mem f i)
    · rw [if_pos hpres]
      apply ih (by omega)
      intro j hj
      obtain hlt | rfl := Nat.lt_succ_iff_lt_or_eq.mp hj
      · exact hbefore j hlt
      · exact hpres
    · rw [if_neg hpres]
      exact .inl ⟨i, ⟨by omega, hpres, fun j _ hj => hbefore j (by simpa using hj)⟩, rfl⟩

theorem store32_absent (hmaps : m.Maps s f) (hi : i < 1024) (hout : ¬Present (entry m.mem f i)) :
    m.store32 (pageAddress s + 4 * i) e = .ok (m.writeWord (f * 4096 + 4 * i) e) := by
  apply storeBytes_beside hmaps (by omega)
  rintro rfl
  have hne : i ≠ s := fun heq => hout (heq ▸ hmaps.2.1)
  omega

/-- `map_pgdir_entry` is right from the bottom, and from the top it is not. -/
theorem pgdir_entry_mapped_iff (m : Machine) (dirPa s f : Nat) (hmaps : m.Maps s f) (fromTop : Bool)
    (e : Nat) (tbl : StartedPgtbl) :
    m.EntryMapped f fromTop e tbl (m.mapPgdirEntry ⟨dirPa, pageAddress s⟩ fromTop e tbl) ↔
      fromTop = false := by
  cases fromTop with
  | true =>
    have hret : m.mapPgdirEntry ⟨dirPa, pageAddress s⟩ true e tbl = .error .outOfBounds := by
      rfl
    rw [hret, EntryMapped]
    simp
  | false =>
    apply iff_of_true _ rfl
    obtain ⟨i, hfirst, hret⟩ | ⟨hall, hret⟩ :=
      freeEntryUp_spec ⟨dirPa, pageAddress s⟩ hmaps rfl (Nat.zero_add 1024)
        (fun j hj => absurd hj (Nat.not_lt_zero j))
    · refine .inl ⟨i, hfirst, ?_⟩
      simp only [mapPgdirEntry, Bool.false_eq_true, if_false, pgdirNumEntries, hret, ok_bind,
        store32_absent hmaps hfirst.lt hfirst.absent]
    · refine .inr ⟨hall, ?_⟩
      simp only [mapPgdirEntry, Bool.false_eq_true, if_false, pgdirNumEntries, hret, ok_bind]

theorem pgdir_entry_mapped_iff_one_page :
    onePage.EntryMapped 2 false 0x5007 ⟨⟨0, 0⟩, 0⟩
      (onePage.mapPgdirEntry ⟨2 <<< 12, pageAddress 0⟩ false 0x5007 ⟨⟨0, 0⟩, 0⟩) :=
  (pgdir_entry_mapped_iff onePage (2 <<< 12) 0 2 (by decide +kernel) false 0x5007
    ⟨⟨0, 0⟩, 0⟩).mpr rfl

theorem top_search_outside :
    ¬Present (entry onePage.mem 2 1022) ∧
    onePage.mapPgdirEntry ⟨2 <<< 12, pageAddress 0⟩ true 0x5007 ⟨⟨0, 0⟩, 0⟩ =
      .error .outOfBounds :=
  ⟨by decide +kernel, rfl⟩

/-- Where the processor finds an address, with the directory in frame `f`. -/
def hardwareWalk (mem : Nat → UInt8) (f va : Nat) : Option Nat :=
  let e := entry mem f (va / 2 ^ 22)
  if ¬Present e then
    none
  else if BigPage e then
    some (e / 2 ^ 22 * 2 ^ 22 + va % 2 ^ 22)
  else
    let p := entry mem (e / 4096) (va / 4096 % 1024)
    if Present p then some (p / 4096 * 4096 + va % 4096) else none

def Walked (m : Machine) (f va : Nat) (r : Except Fault (Nat × Machine)) : Prop :=
  ∃ pa, r = .ok (pa, m) ∧ (∀ a, hardwareWalk m.mem f va = some a → pa = a) ∧
    (pa = noFrame ↔ hardwareWalk m.mem f va = none)

/-- A large page is only asked for its first 4 KiB.  A page of a table is not the one that the
kernel borrows, and not the last byte of memory, whose address is the error. -/
def Walkable (m : Machine) (f va : Nat) : Prop :=
  let e := entry m.mem f (va / 2 ^ 22)
  let p := entry m.mem (e / 4096) (va / 4096 % 1024)
  Present e →
    if BigPage e then va / 4096 % 1024 = 0
    else if e / 4096 = m.kernFrame ∧ m.freeSlotFrom 0x400 0 = some (va / 4096 % 1024) then
      m.kernFrame * 4096 + va % 4096 = noFrame
    else Present p → p / 4096 * 4096 + va % 4096 ≠ noFrame

instance (m : Machine) (f va : Nat) : Decidable (m.Walkable f va) := by
  unfold Walkable
  infer_instance

theorem entry_setSlot {g : Nat} (hv : value < 2 ^ 32) (ht : t < 1024) (hi : i < 1024) :
    entry (m.setSlot t value).mem g i =
      if g = m.kernFrame ∧ i = t then value else entry m.mem g i := entry_setWord hv ht hi

theorem setSlot_restored (hv : value < 2 ^ 32) (ht : t ∈ m.freeSlots) :
    (m.setSlot t value).setSlot t 0 = m := by
  obtain ⟨hlt, hzero⟩ := mem_freeSlots.mp ht
  apply eq_of_slots
  · rfl
  · rfl
  · rfl
  · intro i hi
    rw [slot_setSlot (by omega) hlt hi, slot_setSlot hv hlt hi]
    split
    · rename_i heq
      rw [heq, hzero]
    · rfl
  · intro a ha
    rw [mem_setSlot hlt (by simpa using ha), mem_setSlot hlt ha]

theorem mapVirtualPage_first (hf : f < 2 ^ 20) (h : 0 < m.freeSlots.card) :
    ∃ t ∈ m.freeSlots, m.freeSlotFrom 0x400 0 = some t ∧
      m.mapVirtualPage (f <<< 12 ||| 3) = (pageAddress t, m.setSlot t (f * 4096 + 3)) ∧
      (m.setSlot t (f * 4096 + 3)).Maps t f := by
  obtain ⟨i, hi⟩ := Finset.card_pos.mp h
  obtain ⟨hlt, hzero⟩ := mem_freeSlots.mp hi
  obtain ⟨t, _, hle, ht, hfirst⟩ :=
    freeSlotFrom_spec (Nat.zero_le i) (show i < 0 + 0x400 by omega) hzero
  refine ⟨t, mem_freeSlots.mpr ⟨by omega, ht⟩, hfirst, ?_, maps_setSlot (by omega) hf⟩
  rw [mapVirtualPage, hfirst, pageAddress, or_three]
  dsimp only
  rw [Nat.shiftLeft_eq]

section GetFrame

variable (hmaps : m.Maps s f) (hdir : dir.dirVa = pageAddress s) (hva : va < 2 ^ 32)
include hmaps hdir hva

theorem pgdirGetFrame_absent (hout : ¬Present (entry m.mem f (va / 2 ^ 22))) :
    m.pgdirGetFrame dir va = .ok (noFrame, m) := by
  rw [pgdirGetFrame, dirEntry_page hmaps hdir (by omega), ok_bind, if_pos hout]

theorem pgdirGetFrame_big (hpres : Present (entry m.mem f (va / 2 ^ 22)))
    (hbig : BigPage (entry m.mem f (va / 2 ^ 22))) :
    m.pgdirGetFrame dir va = .ok (entry m.mem f (va / 2 ^ 22) / 2 ^ 22 * 2 ^ 22, m) := by
  rw [pgdirGetFrame, dirEntry_page hmaps hdir (by omega), ok_bind, if_neg (not_not.mpr hpres),
    if_pos hbig, Nat.shiftLeft_eq]

theorem pgdirGetFrame_table (hslots : 0 < m.freeSlots.card)
    (hpres : Present (entry m.mem f (va / 2 ^ 22)))
    (hbig : ¬BigPage (entry m.mem f (va / 2 ^ 22))) :
    ∃ t ∈ m.freeSlots, ∃ p, m.freeSlotFrom 0x400 0 = some t ∧
      p = (if entry m.mem f (va / 2 ^ 22) / 4096 = m.kernFrame ∧ va / 4096 % 1024 = t then
        m.kernFrame * 4096 + 3
        else entry m.mem (entry m.mem f (va / 2 ^ 22) / 4096) (va / 4096 % 1024)) ∧
      m.pgdirGetFrame dir va = .ok (if Present p then p / 4096 * 4096 else noFrame, m) := by
  have he := entry_lt m.mem f (va / 2 ^ 22)
  rw [pgdirGetFrame, dirEntry_page hmaps hdir (by omega), ok_bind, if_neg (not_not.mpr hpres),
    if_neg hbig]
  generalize entry m.mem f (va / 2 ^ 22) = e at *
  have htable : e / 4096 < 2 ^ 20 := by omega
  obtain ⟨t, ht, hfirst, hmap, hshown⟩ := mapVirtualPage_first htable hslots
  have hlt := (mem_freeSlots.mp ht).1
  have hindex : va / 4096 % 1024 < 1024 := Nat.mod_lt _ (by decide)
  refine ⟨t, ht, _, hfirst, rfl, ?_⟩
  rw [hmap]
  dsimp only
  rw [if_neg (pageAddress_ne_null t), load32_page hshown hindex, ok_bind,
    unmapVirtualPage_page hlt, setSlot_restored (by omega) ht, entry_setSlot (by omega) hlt hindex]
  by_cases hown : e / 4096 = m.kernFrame ∧ va / 4096 % 1024 = t
  · rw [if_pos hown, if_pos hown, hown.1, Nat.shiftLeft_eq]
    split <;> rfl
  · rw [if_neg hown, if_neg hown, Nat.shiftLeft_eq]
    split <;> rfl

end GetFrame

theorem walked_ok_iff {pa : Nat} :
    m.Walked f va (.ok (pa, m)) ↔ (∀ a, hardwareWalk m.mem f va = some a → pa = a) ∧
      (pa = noFrame ↔ hardwareWalk m.mem f va = none) := by
  constructor
  · rintro ⟨pa', hret, hsome, hnone⟩
    obtain rfl : pa = pa' := by simpa using hret
    exact ⟨hsome, hnone⟩
  · rintro ⟨hsome, hnone⟩
    exact ⟨pa, rfl, hsome, hnone⟩

theorem pgdirGetPhysAddr_eq {frame : Nat}
    (hret : m.pgdirGetFrame dir (va / 4096 * 4096) = .ok (frame, m)) :
    m.pgdirGetPhysAddr dir va =
      .ok (if frame = noFrame then noFrame else (frame + va % 4096) % 2 ^ 32, m) := by
  rw [pgdirGetPhysAddr, hret, ok_bind]
  dsimp only
  split <;> rfl

theorem physAddr_page {p : Nat} (hp : p < 2 ^ 32) :
    (if (if Present p then p / 4096 * 4096 else noFrame) = noFrame then noFrame
      else ((if Present p then p / 4096 * 4096 else noFrame) + va % 4096) % 2 ^ 32) =
    if Present p then p / 4096 * 4096 + va % 4096 else noFrame := by
  by_cases hpres : Present p
  · rw [if_pos hpres, if_pos hpres, if_neg (by rw [noFrame]; omega)]
    omega
  · rw [if_neg hpres, if_neg hpres, if_pos rfl]

section GetPhysAddr

variable (hmaps : m.Maps s f) (hdir : dir.dirVa = pageAddress s) (hva : va < 2 ^ 32)
include hmaps hdir hva

theorem walked_absent (hout : ¬Present (entry m.mem f (va / 2 ^ 22))) :
    m.Walked f va (m.pgdirGetPhysAddr dir va) := by
  have hindex : va / 4096 * 4096 / 2 ^ 22 = va / 2 ^ 22 := by omega
  have hwalk : hardwareWalk m.mem f va = none := by
    rw [hardwareWalk]
    rw [if_pos hout]
  rw [pgdirGetPhysAddr_eq (pgdirGetFrame_absent hmaps hdir (by omega) (hindex ▸ hout)),
    walked_ok_iff, hwalk]
  simp

theorem walked_big_iff (hpres : Present (entry m.mem f (va / 2 ^ 22)))
    (hbig : BigPage (entry m.mem f (va / 2 ^ 22))) :
    m.Walked f va (m.pgdirGetPhysAddr dir va) ↔ va / 4096 % 1024 = 0 := by
  have hindex : va / 4096 * 4096 / 2 ^ 22 = va / 2 ^ 22 := by omega
  have hpage : va / 4096 * 4096 < 2 ^ 32 := by omega
  have hframe := pgdirGetFrame_big hmaps hdir hpage (hindex ▸ hpres) (hindex ▸ hbig)
  have he := entry_lt m.mem f (va / 2 ^ 22)
  rw [pgdirGetPhysAddr_eq hframe, walked_ok_iff, hardwareWalk, hindex]
  rw [if_neg (not_not.mpr hpres), if_pos hbig, if_neg (by rw [noFrame]; omega)]
  simp only [Option.some.injEq, forall_eq', reduceCtorEq, iff_false]
  rw [noFrame]
  omega

theorem walked_table_iff (hslots : 0 < m.freeSlots.card)
    (hpres : Present (entry m.mem f (va / 2 ^ 22)))
    (hbig : ¬BigPage (entry m.mem f (va / 2 ^ 22))) :
    m.Walked f va (m.pgdirGetPhysAddr dir va) ↔ m.Walkable f va := by
  have hindex : va / 4096 * 4096 / 2 ^ 22 = va / 2 ^ 22 := by omega
  have hpage : va / 4096 * 4096 < 2 ^ 32 := by omega
  obtain ⟨t, ht, p, hfirst, hp, hframe⟩ := pgdirGetFrame_table hmaps hdir hpage hslots
    (hindex ▸ hpres) (hindex ▸ hbig)
  rw [hindex, Nat.mul_div_cancel _ (by decide : 0 < 4096)] at hp
  have hq := entry_lt m.mem (entry m.mem f (va / 2 ^ 22) / 4096) (va / 4096 % 1024)
  have he := entry_lt m.mem f (va / 2 ^ 22)
  rw [pgdirGetPhysAddr_eq hframe, walked_ok_iff, hardwareWalk, Walkable, hfirst,
    forall_prop_of_true hpres]
  simp only [if_neg (not_not.mpr hpres), if_neg hbig, Option.some.injEq]
  by_cases hown : entry m.mem f (va / 2 ^ 22) / 4096 = m.kernFrame ∧ va / 4096 % 1024 = t
  · -- the table is the kernel's own, and the page that shows it is the one asked for
    rw [if_pos hown] at hp
    have hkern : (m.kernFrame * 4096 + 3) / 4096 = m.kernFrame := by
      rw [mul_comm, Nat.mul_add_div (by decide)]
      rfl
    have hshown : Present (m.kernFrame * 4096 + 3) := by
      rw [Present]
      omega
    have hlt : p < 2 ^ 32 := by omega
    have hfree : entry m.mem m.kernFrame t = 0 := (mem_freeSlots.mp ht).2
    rw [physAddr_page hlt, hp, hown.1, hown.2, hfree]
    simp only [if_neg (by decide : ¬Present 0), if_pos hshown, and_self, if_true, reduceCtorEq,
      false_implies, implies_true, true_and, iff_true]
    rw [hkern]
  · rw [if_neg hown] at hp
    have hown' : ¬(entry m.mem f (va / 2 ^ 22) / 4096 = m.kernFrame ∧ t = va / 4096 % 1024) :=
      fun h => hown ⟨h.1, h.2.symm⟩
    rw [physAddr_page (by omega), hp]
    simp only [if_neg hown']
    generalize entry m.mem (entry m.mem f (va / 2 ^ 22) / 4096) (va / 4096 % 1024) = q
    by_cases hpage : Present q
    · simp [hpage]
    · simp [hpage]

end GetPhysAddr

/-- The result is the address that the processor uses, and the kernel's pages stay, exactly where
`Walkable` says. -/
theorem software_walk_iff (m : Machine) (dirPa s f va : Nat) (hmaps : m.Maps s f)
    (hslots : 0 < m.freeSlots.card) (hva : va < 2 ^ 32) :
    m.Walked f va (m.pgdirGetPhysAddr ⟨dirPa, pageAddress s⟩ va) ↔ m.Walkable f va := by
  by_cases hpresent : Present (entry m.mem f (va / 2 ^ 22))
  · by_cases hbig : BigPage (entry m.mem f (va / 2 ^ 22))
    · rw [walked_big_iff hmaps rfl hva hpresent hbig, Walkable, forall_prop_of_true hpresent,
        if_pos hbig]
    · exact walked_table_iff hmaps rfl hva hslots hpresent hbig
  · exact iff_of_true (walked_absent hmaps rfl hva hpresent) fun h => absurd h hpresent

theorem software_walk_iff_one_page :
    onePage.Walkable 2 0x8005 ∧
    onePage.Walked 2 0x8005 (onePage.pgdirGetPhysAddr ⟨2 <<< 12, pageAddress 0⟩ 0x8005) :=
  have hwalkable : onePage.Walkable 2 0x8005 := by decide +kernel
  ⟨hwalkable, (software_walk_iff onePage (2 <<< 12) 0 2 0x8005 (by decide +kernel)
    (Nat.lt_of_lt_of_le (by decide) onePage_freeSlots) (by decide)).mpr hwalkable⟩

def largePage : Machine :=
  { onePage with mem := ofWords fun n => if n = 0x400 then 0x2003 else
      if n = 0x801 then 0x400083 else 0 }

theorem large_page_walk_wrong :
    hardwareWalk largePage.mem 2 0x401000 = some 0x401000 ∧
    (largePage.pgdirGetPhysAddr ⟨2 <<< 12, pageAddress 0⟩ 0x401000).map Prod.fst = .ok 0x400000 :=
  ⟨by decide +kernel, by decide +kernel⟩

end Machine

end Quest.Mem
