import Quest.Lib.Memory
import Quest.Mem.Physical

/-! Physical memory with its page tables, and the kernel's window of 4 MiB on it:
`kernel/mem/virtual.c`. -/
namespace Quest.Mem

open Quest.Lib Memory

def kernelStart : Nat := 0xFFC00000

def entry (mem : Nat → UInt8) (frame i : Nat) : Nat := word mem (frame * 4096 + 4 * i)

def Present (e : Nat) : Prop := e % 2 = 1

def BigPage (e : Nat) : Prop := e / 0x80 % 2 = 1

instance (e : Nat) : Decidable (Present e) := inferInstanceAs (Decidable (_ = 1))

instance (e : Nat) : Decidable (BigPage e) := inferInstanceAs (Decidable (_ = 1))

/-- Physical memory, the frames of the page directory and of the kernel's page table.  That table
is entry 1023 of every directory and, as `KERN_PGT`, in its own window. -/
structure Machine where
  frames : Frames
  mem : Nat → UInt8
  pdFrame : Nat
  kernFrame : Nat

namespace Machine

def getPdbr (m : Machine) : Nat := m.pdFrame <<< 12

def slot (m : Machine) (i : Nat) : Nat := entry m.mem m.kernFrame i

def write (m : Machine) (a : Nat) (bytes : Nat → UInt8) (count : Nat) : Machine :=
  { m with mem := blit m.mem a bytes count }

def writeWord (m : Machine) (a value : Nat) : Machine := m.write a (wordByte value) 4

def setSlot (m : Machine) (i value : Nat) : Machine :=
  m.writeWord (m.kernFrame * 4096 + 4 * i) value

def pageOf (e va : Nat) : Except Fault Nat :=
  if Present e then .ok (e / 4096 * 4096 + va % 4096) else .error .pageFault

def translate (m : Machine) (va : Nat) : Except Fault Nat :=
  let va := va % 2 ^ 32
  if va / 2 ^ 22 = 1023 then
    pageOf (m.slot (va / 4096 % 1024)) va
  else
    let e := entry m.mem m.pdFrame (va / 2 ^ 22)
    if ¬Present e then
      .error .pageFault
    else if BigPage e then
      .ok (e / 2 ^ 22 * 2 ^ 22 + va % 2 ^ 22)
    else
      pageOf (entry m.mem (e / 4096) (va / 4096 % 1024)) va

def load8 (m : Machine) (va : Nat) : Except Fault UInt8 := m.mem <$> m.translate va

def store8 (m : Machine) (va : Nat) (byte : UInt8) : Except Fault Machine :=
  (fun a => { m with mem := Function.update m.mem a byte }) <$> m.translate va

def load32 (m : Machine) (va : Nat) : Except Fault Nat := do
  let byte0 ← m.load8 va
  let byte1 ← m.load8 (va + 1)
  let byte2 ← m.load8 (va + 2)
  let byte3 ← m.load8 (va + 3)
  .ok (byte0.toNat + 2 ^ 8 * byte1.toNat + 2 ^ 16 * byte2.toNat + 2 ^ 24 * byte3.toNat)

def storeBytes (m : Machine) (va : Nat) (bytes : Nat → UInt8) : Nat → Except Fault Machine
  | 0 => .ok m
  | count + 1 => do
    let m ← m.storeBytes va bytes count
    m.store8 (va + count) (bytes count)

def store32 (m : Machine) (va value : Nat) : Except Fault Machine :=
  m.storeBytes va (wordByte value) 4

def memset (m : Machine) (va : Nat) (byte : UInt8) (count : Nat) : Except Fault Machine :=
  m.storeBytes va (fun _ => byte) count

def memcpy (m : Machine) (dst src : Nat) : Nat → Except Fault Machine
  | 0 => .ok m
  | count + 1 => do
    let m ← m.memcpy dst src count
    let byte ← m.load8 (src + count)
    m.store8 (dst + count) byte

def setFrames (m : Machine) (frames : Frames) : Machine := { m with frames := frames }

def allocPhysFrame (m : Machine) : Except Fault (Nat × Machine) :=
  (fun r => (r.1, m.setFrames r.2)) <$> m.frames.allocPhysFrame

def freePhysFrame (m : Machine) (frame : Nat) : Machine :=
  m.setFrames (m.frames.freePhysFrame frame)

def freeSlotFrom (m : Machine) : Nat → Nat → Option Nat
  | 0, _ => none
  | rounds + 1, i => if m.slot i = 0 then some i else m.freeSlotFrom rounds (i + 1)

def mapVirtualPage (m : Machine) (physFrame : Nat) : Nat × Machine :=
  match m.freeSlotFrom 0x400 0 with
  | some i => (kernelStart + i <<< 12, m.setSlot i physFrame)
  | none => (0, m)

def unmapVirtualPage (m : Machine) (virtAddr : Nat) : Machine :=
  m.setSlot ((virtAddr >>> 12) &&& 0x3FF) 0

variable {m m' : Machine} {i j s f g value off count k : Nat} {mem mem' : Nat → UInt8}

theorem entry_lt (mem : Nat → UInt8) (f i : Nat) : entry mem f i < 2 ^ 32 := word_lt _ _

theorem entry_ofWords {words : Nat → Nat} (h : words (f * 1024 + i) < 2 ^ 32) :
    entry (ofWords words) f i = words (f * 1024 + i) := by
  rw [entry, show f * 4096 + 4 * i = 4 * (f * 1024 + i) by omega, word_ofWords h]

theorem entry_congr (h : ∀ a, a / 4096 = f → mem' a = mem a) (hi : i < 1024) :
    entry mem' f i = entry mem f i := by
  apply word_congr
  intro j hj
  apply h
  omega

theorem bytes_of_entries (h : ∀ i < 1024, entry mem' f i = entry mem f i) {a : Nat}
    (ha : a / 4096 = f) : mem' a = mem a := by
  have hword : entry mem' f (a % 4096 / 4) = entry mem f (a % 4096 / 4) := h _ (by omega)
  have hbyte : ∀ mem : Nat → UInt8, mem a = wordByte (entry mem f (a % 4096 / 4)) (a % 4) := by
    intro mem
    rw [entry, wordByte_word (by omega)]
    congr 1
    omega
  rw [hbyte mem', hbyte mem, hword]

theorem entry_setWord (hv : value < 2 ^ 32) (hi : i < 1024) (hj : j < 1024) :
    entry (setWord mem (f * 4096 + 4 * i) value) g j =
      if g = f ∧ j = i then value else entry mem g j := by
  rw [entry]
  split
  · rename_i h
    rw [h.1, h.2, word_setWord hv]
  · rename_i h
    rw [setWord, word_blit_outside]
    · rfl
    · omega

theorem setWord_off {a : Nat} (hi : i < 1024) (ha : a / 4096 ≠ f) :
    setWord mem (f * 4096 + 4 * i) value a = mem a := by
  rw [setWord, blit_outside]
  omega

theorem slot_setSlot (hv : value < 2 ^ 32) (hi : i < 1024) (hj : j < 1024) :
    (m.setSlot i value).slot j = if j = i then value else m.slot j := by
  have h : entry (setWord m.mem (m.kernFrame * 4096 + 4 * i) value) m.kernFrame j =
      if m.kernFrame = m.kernFrame ∧ j = i then value else entry m.mem m.kernFrame j :=
    entry_setWord hv hi hj
  simp only [true_and] at h
  exact h

theorem mem_setSlot {a : Nat} (hi : i < 1024) (ha : a / 4096 ≠ m.kernFrame) :
    (m.setSlot i value).mem a = m.mem a := setWord_off hi ha

@[simp] theorem setSlot_kernFrame : (m.setSlot i value).kernFrame = m.kernFrame := rfl

@[simp] theorem setSlot_pdFrame : (m.setSlot i value).pdFrame = m.pdFrame := rfl

@[simp] theorem setSlot_frames : (m.setSlot i value).frames = m.frames := rfl

variable {r : Frames}

@[simp] theorem setFrames_frames : (m.setFrames r).frames = r := rfl

@[simp] theorem setFrames_mem : (m.setFrames r).mem = m.mem := rfl

@[simp] theorem setFrames_pdFrame : (m.setFrames r).pdFrame = m.pdFrame := rfl

@[simp] theorem setFrames_kernFrame : (m.setFrames r).kernFrame = m.kernFrame := rfl

@[simp] theorem setFrames_slot : (m.setFrames r).slot i = m.slot i := rfl

def Maps (m : Machine) (s f : Nat) : Prop := s < 1024 ∧ Present (m.slot s) ∧ m.slot s / 4096 = f

instance (m : Machine) (s f : Nat) : Decidable (m.Maps s f) := inferInstanceAs (Decidable (_ ∧ _))

def pageAddress (s : Nat) : Nat := kernelStart + s * 4096

theorem translate_page (h : m.Maps s f) (hoff : off < 4096) :
    m.translate (pageAddress s + off) = .ok (f * 4096 + off) := by
  obtain ⟨hs, hpres, rfl⟩ := h
  have hva : (pageAddress s + off) % 2 ^ 32 = pageAddress s + off := by
    rw [pageAddress, kernelStart]
    omega
  have hpage : (pageAddress s + off) / 4096 % 1024 = s := by
    rw [pageAddress, kernelStart]
    omega
  have hoffset : (pageAddress s + off) % 4096 = off := by
    rw [pageAddress, kernelStart]
    omega
  rw [translate, hva]
  rw [if_pos (by rw [pageAddress, kernelStart]; omega), pageOf, hpage, if_pos hpres, hoffset]

theorem Maps.congr (h : m.Maps s f) (hslot : m'.slot s = m.slot s) : m'.Maps s f := by
  rwa [Maps, hslot]

theorem load8_page (h : m.Maps s f) (hoff : off < 4096) :
    m.load8 (pageAddress s + off) = .ok (m.mem (f * 4096 + off)) := by
  rw [load8, translate_page h hoff]
  rfl

theorem load32_page (h : m.Maps s f) (hi : i < 1024) :
    m.load32 (pageAddress s + 4 * i) = .ok (entry m.mem f i) := by
  have hload : ∀ j < 4, m.load8 (pageAddress s + 4 * i + j) = .ok (m.mem (f * 4096 + 4 * i + j)) := by
    intro j hj
    rw [add_assoc, load8_page h (by omega), add_assoc]
  have hfirst := hload 0 (by omega)
  rw [add_zero, add_zero] at hfirst
  rw [load32, hfirst, ok_bind, hload 1 (by omega), ok_bind, hload 2 (by omega), ok_bind,
    hload 3 (by omega), ok_bind]
  rfl

section Write

variable {bytes : Nat → UInt8}

variable {a : Nat}

@[simp] theorem write_frames : (m.write a bytes count).frames = m.frames := rfl

@[simp] theorem write_pdFrame : (m.write a bytes count).pdFrame = m.pdFrame := rfl

@[simp] theorem write_kernFrame : (m.write a bytes count).kernFrame = m.kernFrame := rfl

@[simp] theorem writeWord_frames : (m.writeWord a value).frames = m.frames := rfl

@[simp] theorem writeWord_pdFrame : (m.writeWord a value).pdFrame = m.pdFrame := rfl

@[simp] theorem writeWord_kernFrame : (m.writeWord a value).kernFrame = m.kernFrame := rfl

theorem mem_write_off (hoff : off + count ≤ 4096) (ha : a / 4096 ≠ f) :
    (m.write (f * 4096 + off) bytes count).mem a = m.mem a := by
  apply blit_outside
  omega

theorem entry_write_off (hoff : off + count ≤ 4096) (hg : g ≠ f) (hi : i < 1024) :
    entry (m.write (f * 4096 + off) bytes count).mem g i = entry m.mem g i := by
  apply entry_congr _ hi
  intro a ha
  exact mem_write_off hoff (ha ▸ hg)

theorem entry_writeWord (hv : value < 2 ^ 32) (hi : i < 1024) (hj : j < 1024) :
    entry (m.writeWord (f * 4096 + 4 * i) value).mem g j =
      if g = f ∧ j = i then value else entry m.mem g j := entry_setWord hv hi hj

theorem slot_write (hoff : off + count ≤ 4096) (hf : f ≠ m.kernFrame) (hs : s < 1024) :
    (m.write (f * 4096 + off) bytes count).slot s = m.slot s :=
  entry_write_off hoff hf.symm hs

theorem Maps.write (h : m.Maps s g) (hoff : off + count ≤ 4096) (hf : f ≠ m.kernFrame) :
    (m.write (f * 4096 + off) bytes count).Maps s g := h.congr (slot_write hoff hf h.1)

theorem Maps.writeBeside (h : m.Maps s g) (hoff : off + count ≤ 4096)
    (hbeside : f = m.kernFrame → off + count ≤ 4 * s ∨ 4 * s + 4 ≤ off) :
    (m.write (f * 4096 + off) bytes count).Maps s g := by
  apply h.congr
  by_cases hf : f = m.kernFrame
  · have hs := h.1
    apply word_blit_outside
    omega
  · exact slot_write hoff hf h.1

section

variable (h : m.Maps s f)
include h

theorem storeBytes_beside (hoff : off + count ≤ 4096)
    (hbeside : f = m.kernFrame → off + count ≤ 4 * s ∨ 4 * s + 4 ≤ off) :
    m.storeBytes (pageAddress s + off) bytes count = .ok (m.write (f * 4096 + off) bytes count) := by
  induction count with
  | zero =>
    rw [storeBytes, write, blit_zero]
  | succ count ih =>
    have hbeside' : f = m.kernFrame → off + count ≤ 4 * s ∨ 4 * s + 4 ≤ off := by
      intro hf
      omega
    have hmaps : (m.write (f * 4096 + off) bytes count).Maps s f :=
      h.writeBeside (by omega) hbeside'
    rw [storeBytes, ih (by omega) hbeside', ok_bind, store8, add_assoc,
      translate_page hmaps (by omega), write, write, ← update_blit, add_assoc]
    rfl

theorem storeBytes_page (hf : f ≠ m.kernFrame) (hoff : off + count ≤ 4096) :
    m.storeBytes (pageAddress s + off) bytes count = .ok (m.write (f * 4096 + off) bytes count) :=
  storeBytes_beside h hoff fun heq => absurd heq hf

theorem store32_page (hf : f ≠ m.kernFrame) (hi : i < 1024) :
    m.store32 (pageAddress s + 4 * i) value = .ok (m.writeWord (f * 4096 + 4 * i) value) :=
  storeBytes_page h hf (by omega)

theorem memset_page {byte : UInt8} (hf : f ≠ m.kernFrame)
    (hoff : off + count ≤ 4096) :
    m.memset (pageAddress s + off) byte count =
      .ok (m.write (f * 4096 + off) (fun _ => byte) count) :=
  storeBytes_page h hf hoff

theorem memcpy_page {s' off' : Nat} (h' : m.Maps s' g) (hf : f ≠ m.kernFrame)
    (hfg : f ≠ g) (hoff : off + count ≤ 4096) (hoff' : off' + count ≤ 4096) :
    m.memcpy (pageAddress s + off) (pageAddress s' + off') count =
      .ok (m.write (f * 4096 + off) (fun j => m.mem (g * 4096 + off' + j)) count) := by
  induction count with
  | zero =>
    rw [memcpy, write, blit_zero]
  | succ count ih =>
    have hread : (m.write (f * 4096 + off) (fun j => m.mem (g * 4096 + off' + j)) count).mem
        (g * 4096 + (off' + count)) = m.mem (g * 4096 + off' + count) := by
      rw [mem_write_off (by omega) (by omega), add_assoc]
    have hmaps : (m.write (f * 4096 + off) (fun j => m.mem (g * 4096 + off' + j)) count).Maps s f :=
      h.write (by omega) hf
    have hmaps' :
        (m.write (f * 4096 + off) (fun j => m.mem (g * 4096 + off' + j)) count).Maps s' g :=
      h'.write (by omega) hf
    rw [memcpy, ih (by omega) (by omega), ok_bind, add_assoc (pageAddress s'),
      load8_page hmaps' (by omega), ok_bind, hread, store8, add_assoc (pageAddress s),
      translate_page hmaps (by omega), write, write, ← update_blit,
      add_assoc (f * 4096)]
    rfl

end

def writePage (m : Machine) (f : Nat) (bytes : Nat → UInt8) : Machine := m.write (f * 4096) bytes 4096

@[simp] theorem writePage_frames : (m.writePage f bytes).frames = m.frames := rfl

@[simp] theorem writePage_pdFrame : (m.writePage f bytes).pdFrame = m.pdFrame := rfl

@[simp] theorem writePage_kernFrame : (m.writePage f bytes).kernFrame = m.kernFrame := rfl

theorem mem_writePage (a : Nat) :
    (m.writePage f bytes).mem a = if a / 4096 = f then bytes (a % 4096) else m.mem a := by
  rw [writePage, write]
  dsimp only
  split
  · rw [blit_inside (by omega) (by omega)]
    congr 1
    omega
  · rw [blit_outside (by omega)]

theorem entry_writePage_off (hg : g ≠ f) (hi : i < 1024) :
    entry (m.writePage f bytes).mem g i = entry m.mem g i := by
  apply entry_congr _ hi
  intro a ha
  rw [mem_writePage, if_neg (ha ▸ hg)]

theorem slot_writePage (hf : f ≠ m.kernFrame) (hs : s < 1024) :
    (m.writePage f bytes).slot s = m.slot s := entry_writePage_off hf.symm hs

theorem slot_writeWord (hf : f ≠ m.kernFrame) (hi : i < 1024) (hs : s < 1024) :
    (m.writeWord (f * 4096 + 4 * i) value).slot s = m.slot s := slot_write (by omega) hf hs

theorem mem_writeWord_off (hi : i < 1024) (ha : a / 4096 ≠ f) :
    (m.writeWord (f * 4096 + 4 * i) value).mem a = m.mem a := mem_write_off (by omega) ha

theorem memset_whole {byte : UInt8} (h : m.Maps s f) (hf : f ≠ m.kernFrame) :
    m.memset (pageAddress s) byte 4096 = .ok (m.writePage f fun _ => byte) := by
  have hret : m.memset (pageAddress s + 0) byte 4096 =
      .ok (m.write (f * 4096 + 0) (fun _ => byte) 4096) := memset_page h hf (by omega)
  rwa [add_zero, add_zero] at hret

theorem memcpy_whole {s' : Nat} (h : m.Maps s f) (h' : m.Maps s' g) (hf : f ≠ m.kernFrame)
    (hfg : f ≠ g) :
    m.memcpy (pageAddress s) (pageAddress s') 4096 =
      .ok (m.writePage f fun j => m.mem (g * 4096 + j)) := by
  have hret : m.memcpy (pageAddress s + 0) (pageAddress s' + 0) 4096 =
      .ok (m.write (f * 4096 + 0) (fun j => m.mem (g * 4096 + 0 + j)) 4096) :=
    memcpy_page h h' hf hfg (by omega) (by omega)
  simp only [add_zero] at hret
  exact hret

end Write

theorem eq_of_slots (hframes : m'.frames = m.frames) (hpd : m'.pdFrame = m.pdFrame)
    (hkern : m'.kernFrame = m.kernFrame) (hslots : ∀ i < 1024, m'.slot i = m.slot i)
    (hmem : ∀ a, a / 4096 ≠ m.kernFrame → m'.mem a = m.mem a) : m' = m := by
  obtain ⟨frames, mem, pdFrame, kernFrame⟩ := m
  obtain ⟨frames', mem', pdFrame', kernFrame'⟩ := m'
  cases hkern
  congr 1
  funext a
  by_cases ha : a / 4096 = kernFrame
  · exact bytes_of_entries hslots ha
  · exact hmem a ha

def freeSlots (m : Machine) : Finset Nat := (Finset.range 1024).filter fun i => m.slot i = 0

theorem mem_freeSlots : i ∈ m.freeSlots ↔ i < 1024 ∧ m.slot i = 0 := by
  rw [freeSlots, Finset.mem_filter, Finset.mem_range]

theorem freeSlotFrom_spec {rounds : Nat} (hi : i ≤ s) (hs : s < i + rounds) (hzero : m.slot s = 0) :
    ∃ t, i ≤ t ∧ t ≤ s ∧ m.slot t = 0 ∧ m.freeSlotFrom rounds i = some t := by
  induction rounds generalizing i with
  | zero => omega
  | succ rounds ih =>
    rw [freeSlotFrom]
    split
    · rename_i hfirst
      exact ⟨i, le_refl i, hi, hfirst, rfl⟩
    · rename_i hfirst
      have hne : i ≠ s := fun heq => hfirst (heq ▸ hzero)
      obtain ⟨t, hle, hts, ht, hret⟩ := ih (i := i + 1) (by omega) (by omega)
      exact ⟨t, by omega, hts, ht, hret⟩

@[simp] theorem freeSlots_setFrames : (m.setFrames r).freeSlots = m.freeSlots := rfl

theorem mapVirtualPage_spec (physFrame : Nat) (h : 0 < m.freeSlots.card) :
    ∃ s ∈ m.freeSlots, m.mapVirtualPage physFrame = (pageAddress s, m.setSlot s physFrame) := by
  obtain ⟨i, hi⟩ := Finset.card_pos.mp h
  obtain ⟨hlt, hzero⟩ := mem_freeSlots.mp hi
  obtain ⟨s, _, hle, hs, hret⟩ := freeSlotFrom_spec (Nat.zero_le i)
    (show i < 0 + 0x400 by omega) hzero
  refine ⟨s, mem_freeSlots.mpr ⟨by omega, hs⟩, ?_⟩
  rw [mapVirtualPage, hret, pageAddress]
  dsimp only
  rw [Nat.shiftLeft_eq]

theorem pageAddress_index (hs : s < 1024) : (pageAddress s >>> 12) &&& 0x3FF = s := by
  rw [Nat.shiftRight_eq_div_pow, Nat.and_two_pow_sub_one_eq_mod _ 10, pageAddress, kernelStart]
  omega

theorem unmapVirtualPage_page (hs : s < 1024) :
    m.unmapVirtualPage (pageAddress s) = m.setSlot s 0 := by
  rw [unmapVirtualPage, pageAddress_index hs]

theorem pageAddress_ne_null (s : Nat) : pageAddress s ≠ 0 := by
  rw [pageAddress, kernelStart]
  omega

theorem freeSlots_of_slots (hne : value ≠ 0)
    (h : ∀ i < 1024, m'.slot i = if i = s then value else m.slot i) :
    m'.freeSlots = m.freeSlots.erase s := by
  ext i
  rw [Finset.mem_erase, mem_freeSlots, mem_freeSlots]
  constructor
  · rintro ⟨hi, hzero⟩
    rw [h i hi] at hzero
    split at hzero
    · exact absurd hzero hne
    · rename_i hne'
      exact ⟨hne', hi, hzero⟩
  · rintro ⟨hne', hi, hzero⟩
    rw [h i hi, if_neg hne']
    exact ⟨hi, hzero⟩

theorem freeSlots_setSlot (hs : s < 1024) (hv : value < 2 ^ 32) (hne : value ≠ 0) :
    (m.setSlot s value).freeSlots = m.freeSlots.erase s :=
  freeSlots_of_slots hne fun _ hi => slot_setSlot hv hs hi

theorem maps_setSlot (hs : s < 1024) (hf : f < 2 ^ 20) : (m.setSlot s (f * 4096 + 3)).Maps s f := by
  rw [Maps, slot_setSlot (by omega) hs hs, if_pos rfl, Present]
  exact ⟨hs, by omega, by omega⟩

theorem Maps.setSlot (h : m.Maps s f) (hi : i < 1024) (hv : value < 2 ^ 32) (hne : s ≠ i) :
    (m.setSlot i value).Maps s f := by
  apply h.congr
  rw [slot_setSlot hv hi h.1, if_neg hne]

theorem Maps.not_free (h : m.Maps s f) (hi : i ∈ m.freeSlots) : s ≠ i := by
  rintro rfl
  have hpres := h.2.1
  rw [(mem_freeSlots.mp hi).2] at hpres
  exact absurd hpres (by decide)

theorem or_three (f : Nat) : (f <<< 12) ||| 3 = f * 4096 + 3 := by
  rw [← Nat.shiftLeft_add_eq_or_of_lt (by decide), Nat.shiftLeft_eq]

theorem mapVirtualPage_frame (hf : f < 2 ^ 20) (h : 0 < m.freeSlots.card) :
    ∃ s ∈ m.freeSlots, m.mapVirtualPage ((f <<< 12) ||| 3) =
      (pageAddress s, m.setSlot s (f * 4096 + 3)) ∧ (m.setSlot s (f * 4096 + 3)).Maps s f := by
  obtain ⟨s, hs, hret⟩ := m.mapVirtualPage_spec (f * 4096 + 3) h
  rw [or_three]
  exact ⟨s, hs, hret, maps_setSlot (mem_freeSlots.mp hs).1 hf⟩

theorem allocPhysFrame_available (h : 0 < m.frames.available) :
    ∃ k, m.frames.Free k ∧ k < m.frames.mmLimit ∧
      m.allocPhysFrame = .ok (k <<< 12, m.setFrames (m.frames.clr k 1)) := by
  obtain ⟨k, hlt, hfree, _, hret⟩ | ⟨hnone, _⟩ := m.frames.allocPhysFrame_spec
  · refine ⟨k, hfree, hlt, ?_⟩
    rw [allocPhysFrame, hret]
    rfl
  · obtain ⟨k, hk⟩ := Finset.card_pos.mp h
    obtain ⟨hlt, hfree⟩ := Finset.mem_filter.mp hk
    exact absurd hfree (hnone k (Finset.mem_range.mp hlt))

def Owned (m : Machine) (f : Nat) : Prop := f ≠ m.kernFrame ∧ ¬m.frames.Free f

instance (m : Machine) (f : Nat) : Decidable (m.Owned f) := inferInstanceAs (Decidable (_ ∧ _))

structure NewPage (m m' : Machine) (k s : Nat) : Prop where
  free : m.frames.Free k
  below : k < m.frames.mmLimit
  slotFree : s ∈ m.freeSlots
  maps : m'.Maps s k
  frames : m'.frames = m.frames.clr k 1
  pdFrame : m'.pdFrame = m.pdFrame
  kernFrame : m'.kernFrame = m.kernFrame
  kern : k ≠ m.kernFrame
  slots : ∀ i < 1024, m'.slot i = if i = s then k * 4096 + 3 else m.slot i
  zero : ∀ a, a / 4096 = k → m'.mem a = 0
  mem : ∀ a, a / 4096 ≠ m.kernFrame → a / 4096 ≠ k → m'.mem a = m.mem a

theorem newPage_spec (hkern : ¬m.frames.Free m.kernFrame) (havail : 0 < m.frames.available)
    (hslots : 0 < m.freeSlots.card) :
    ∃ k s m1 m', m.allocPhysFrame = .ok (k <<< 12, m.setFrames (m.frames.clr k 1)) ∧
      (m.setFrames (m.frames.clr k 1)).mapVirtualPage ((k <<< 12) ||| 3) = (pageAddress s, m1) ∧
      m1.memset (pageAddress s) 0 4096 = .ok m' ∧ m.NewPage m' k s := by
  obtain ⟨k, hfree, hlt, halloc⟩ := allocPhysFrame_available havail
  have hk : k < 2 ^ 20 := lt_of_lt_of_le hlt m.frames.mmLimit_le
  have hkern' : k ≠ m.kernFrame := fun heq => hkern (heq ▸ hfree)
  obtain ⟨s, hs, hmap, hmaps⟩ := (m.setFrames (m.frames.clr k 1)).mapVirtualPage_frame hk hslots
  rw [freeSlots_setFrames] at hs
  have hs' := (mem_freeSlots.mp hs).1
  refine ⟨k, s, _, _, halloc, hmap, memset_whole hmaps (by simpa using hkern'), ?_⟩
  refine ⟨hfree, hlt, hs, hmaps.congr ?_, by simp, by simp, by simp, hkern', ?_, ?_, ?_⟩
  · exact slot_writePage (by simpa using hkern') hs'
  · intro i hi
    rw [slot_writePage (by simpa using hkern') hi, slot_setSlot (by omega) hs' hi, setFrames_slot]
  · intro a ha
    rw [mem_writePage, if_pos ha]
  · intro a ha ha'
    rw [mem_writePage, if_neg ha', mem_setSlot hs' (by simpa using ha), setFrames_mem]

namespace NewPage

variable (h : m.NewPage m' k s)

include h

theorem used : ¬m'.frames.Free k := by
  rw [h.frames, Frames.free_clr]
  omega

theorem stillUsed (hf : ¬m.frames.Free f) : ¬m'.frames.Free f := by
  rw [h.frames, Frames.free_clr]
  exact fun hf' => hf hf'.1

theorem owned (hf : m.Owned f) : m'.Owned f := ⟨h.kernFrame ▸ hf.1, h.stillUsed hf.2⟩

theorem ne (hf : ¬m.frames.Free f) : f ≠ k := fun heq => hf (heq ▸ h.free)

theorem entry_eq (hf : m.Owned f) (hi : i < 1024) : entry m'.mem f i = entry m.mem f i := by
  apply entry_congr _ hi
  intro a ha
  exact h.mem a (ha ▸ hf.1) (ha ▸ h.ne hf.2)

theorem entry_zero (hi : i < 1024) : entry m'.mem k i = 0 :=
  word_zero fun j hj => h.zero _ (by omega)

theorem keeps (hmaps : m.Maps i f) : m'.Maps i f := by
  apply hmaps.congr
  rw [h.slots i hmaps.1, if_neg (hmaps.not_free h.slotFree)]

theorem freeSlots_eq : m'.freeSlots = m.freeSlots.erase s :=
  freeSlots_of_slots (Nat.succ_ne_zero _) h.slots

theorem card_freeSlots : m'.freeSlots.card + 1 = m.freeSlots.card := by
  rw [h.freeSlots_eq, Finset.card_erase_add_one h.slotFree]

theorem available : m'.frames.available + 1 = m.frames.available := by
  rw [h.frames, Frames.available_clr h.free h.below]

theorem took : m.frames.Took m'.frames [k] := by
  rw [h.frames]
  exact Frames.took_clr h.free h.below

end NewPage

end Machine

end Quest.Mem
