import Quest.Task.Calls
import Quest.Vm.Segments

/-! The entry into protected mode: what the processor derives from a descriptor, and when the
monitor installs it. -/
namespace Quest.Vm

open Quest.Task (Descriptor)

def archBase (mem : Mem) (a : Addr) : BitVec 32 := mem (a + 7) ++ mem (a + 4) ++ load16 mem (a + 2)

def archLimit (mem : Mem) (a : Addr) : BitVec 32 :=
  let limit : BitVec 20 := (mem (a + 6)).setWidth 4 ++ load16 mem a
  if (mem (a + 6)).msb then limit ++ 0xFFF#12 else limit.setWidth 32

def archAccess (mem : Mem) (a : Addr) : BitVec 32 :=
  (mem (a + 5) ||| 1).setWidth 32 ||| (mem (a + 6) &&& 0xF0).setWidth 32 <<< 8

def Machine.opcodeAddr (vm : Machine) (pre : List (BitVec 8)) : Addr :=
  vm.codeAddr + BitVec.ofNat 32 pre.length

def Machine.target (vm : Machine) (pre : List (BitVec 8)) : BitVec 16 :=
  load16 vm.mem (vm.opcodeAddr pre + 1 + 1 + 1 + 6)

/-- The address of entry `i` of a GDT. -/
def entry (base : Addr) (i : Nat) : Addr := base + BitVec.ofNat 32 (8 * i)

/-- A write of CR0 that enables protected mode, and a far jump. -/
structure Enters (vm : Machine) (pre : List (BitVec 8)) : Prop where
  fetched : Fetched vm pre 0x0F
  opcode : vm.mem (vm.opcodeAddr pre + 1) = 0x22
  enables : vm.regs.reg (vm.mem (vm.opcodeAddr pre + 1 + 1) &&& 7) &&& 1 ≠ 0
  operand : vm.mem (vm.opcodeAddr pre + 1 + 1 + 1) = 0x66
  jump : vm.mem (vm.opcodeAddr pre + 1 + 1 + 1 + 1) = 0xEA

/-- CS is what the processor derives from entry `i` of the GDT, and has the base that
`pick_segment_regs` and `lookup_TSS` compute for it. -/
structure Installed (vm vm' : Machine) (i : Nat) : Prop where
  base : vm'.cs.base = archBase vm.mem (entry vm.gdtrBase i)
  limit : vm'.cs.limit = archLimit vm.mem (entry vm.gdtrBase i)
  access : vm'.cs.access = archAccess vm.mem (entry vm.gdtrBase i)
  picked : (loadSegment vm.mem vm.gdtrBase i).base = vm'.cs.base
  tss : ∀ (k : Task.Kernel) (selector : Nat),
    k.ad (selector >>> 3) = descriptorAt vm.mem (entry vm.gdtrBase i) →
      BitVec.ofNat 32 (k.lookupTss selector) = vm'.cs.base

def CodeSegment (d : Descriptor) : Prop := d.uDPL = 0 ∧ d.uType &&& 0x8 ≠ 0

def DataSegment (d : Descriptor) : Prop := d.uDPL = 0 ∧ d.uType &&& 0x8 = 0

instance : DecidablePred CodeSegment := fun _ => inferInstanceAs (Decidable (_ ∧ _))

instance : DecidablePred DataSegment := fun _ => inferInstanceAs (Decidable (_ ∧ _))

structure HasSegments (mem : Mem) (base limit : Addr) : Prop where
  ends : base.toNat + 8 * ((limit.toNat + 8) / 8) < 2 ^ 32
  code : ∃ i, 0 < i ∧ 8 * i ≤ limit.toNat ∧ CodeSegment (descriptorAt mem (entry base i))
  data : ∃ i, 0 < i ∧ 8 * i ≤ limit.toNat ∧ DataSegment (descriptorAt mem (entry base i))

variable (mem : Mem) (a : Addr)

theorem base_descriptorAt : (descriptorAt mem a).base = (archBase mem a).toNat := by
  rw [archBase, BitVec.toNat_append, BitVec.toNat_append, Nat.shiftLeft_or_distrib,
    ← Nat.shiftLeft_add, Nat.or_comm, Nat.or_comm (_ <<< (8 + 16)), ← Nat.or_assoc]
  rfl

theorem segmentLimit_descriptorAt : segmentLimit (descriptorAt mem a) = archLimit mem a := by
  have hlow : ∀ b : BitVec 8, (b &&& 0xF).toNat = (b.setWidth 4).toNat := by decide +kernel
  have hgranular : ∀ b : BitVec 8, (b >>> 7).toNat ≠ 0 ↔ b.msb = true := by decide +kernel
  have hlimit : (descriptorAt mem a).uLimit0 ||| (descriptorAt mem a).uLimit1 <<< 16 =
      ((mem (a + 6)).setWidth 4 ++ load16 mem a).toNat := by
    rw [BitVec.toNat_append, Nat.or_comm, ← hlow]
    rfl
  rw [segmentLimit, hlimit, BitVec.ofNat_toNat, archLimit]
  refine if_congr (hgranular _) ?_ rfl
  generalize (mem (a + 6)).setWidth 4 ++ load16 mem a = limit
  apply BitVec.eq_of_toNat_eq
  rw [BitVec.toNat_append, BitVec.toNat_or, BitVec.toNat_shiftLeft, BitVec.toNat_setWidth,
    Nat.shiftLeft_eq, Nat.shiftLeft_eq,
    Nat.mod_eq_of_lt (by omega : limit.toNat < 2 ^ 32), Nat.mod_eq_of_lt (by omega)]
  rfl

theorem access_descriptorAt : access (descriptorAt mem a) = archAccess mem a := by
  have hlow : ∀ b : BitVec 8, BitVec.ofNat 32 (0x01 ||| (b &&& 0x1F).toNat |||
      ((b >>> 5) &&& 3).toNat <<< 0x05 ||| (b >>> 7).toNat <<< 0x07) =
        (b ||| 1).setWidth 32 := by decide +kernel
  have hhigh : ∀ b : BitVec 8, BitVec.ofNat 32 (((b >>> 4) &&& 1).toNat <<< 0x0C |||
      ((b >>> 5) &&& 1).toNat <<< 0x0D ||| ((b >>> 6) &&& 1).toNat <<< 0x0E |||
        (b >>> 7).toNat <<< 0x0F) = (b &&& 0xF0).setWidth 32 <<< 8 := by decide +kernel
  rw [archAccess, ← hlow, ← hhigh, ← BitVec.ofNat_or]
  simp only [access, descriptorAt, Nat.or_assoc]

theorem jumpBase_iff :
    BitVec.ofNat 32 ((descriptorAt mem a).pBase0 ||| (descriptorAt mem a).pBase1 <<< 8 |||
        (descriptorAt mem a).pBase2 <<< 16) = archBase mem a ↔
      mem (a + 4) = 0 ∧ mem (a + 7) = 0 := by
  have h0 : (descriptorAt mem a).pBase0 < 2 ^ 16 := (load16 mem (a + 2)).isLt
  have h1 : (descriptorAt mem a).pBase1 < 2 ^ 8 := (mem (a + 4)).isLt
  have h2 : (descriptorAt mem a).pBase2 < 2 ^ 8 := (mem (a + 7)).isLt
  have hbase := base_descriptorAt mem a
  rw [show mem (a + 4) = 0 ↔ (descriptorAt mem a).pBase1 = 0 from BitVec.toNat_inj.symm,
    show mem (a + 7) = 0 ↔ (descriptorAt mem a).pBase2 = 0 from BitVec.toNat_inj.symm]
  rw [Descriptor.base] at hbase
  generalize (descriptorAt mem a).pBase0 = p0, (descriptorAt mem a).pBase1 = p1,
    (descriptorAt mem a).pBase2 = p2 at *
  have hlt : p0 ||| p1 <<< 8 < 2 ^ 16 := 
    Nat.or_lt_two_pow h0 (by rw [Nat.shiftLeft_eq]; omega)
  have hlt' : p0 ||| p1 <<< 8 ||| p2 <<< 16 < 2 ^ 24 :=
    Nat.or_lt_two_pow (by omega) (by rw [Nat.shiftLeft_eq]; omega)
  rw [← BitVec.toNat_inj, ← hbase, BitVec.toNat_ofNat, Nat.mod_eq_of_lt (by omega)]
  constructor
  · intro h
    have hle := Nat.right_le_or (n := p0 ||| p1 <<< 16) (m := p2 <<< 24)
    rw [← h, Nat.shiftLeft_eq] at hle
    obtain rfl : p2 = 0 := by omega
    simp only [Nat.zero_shiftLeft, Nat.or_zero] at h
    have hle := Nat.right_le_or (n := p0) (m := p1 <<< 16)
    rw [← h, Nat.shiftLeft_eq] at hle
    exact ⟨by omega, rfl⟩
  · rintro ⟨rfl, rfl⟩
    simp

variable {mem a}

theorem picked_ne_zero_iff {x i : Nat} {p : Prop} [Decidable p] :
    (if x = 0 ∧ p then i else x) ≠ 0 ↔ x ≠ 0 ∨ i ≠ 0 ∧ p := by
  split <;> grind

theorem pickLoop_iff (lim : Addr) : ∀ (fuel i : Nat) (ad : Addr) (csI dsI : Nat),
    (∃ c d, pickLoop mem lim fuel i ad csI dsI = .ok (c, d) ∧ c ≠ 0 ∧ d ≠ 0) ↔
      ∃ n < fuel, (∀ j < n, entry ad j < lim) ∧ ¬entry ad n < lim ∧
        (csI ≠ 0 ∨ ∃ j < n, i + j ≠ 0 ∧ CodeSegment (descriptorAt mem (entry ad j))) ∧
        (dsI ≠ 0 ∨ ∃ j < n, i + j ≠ 0 ∧ DataSegment (descriptorAt mem (entry ad j)))
  | 0, _, _, _, _ => by simp [pickLoop]
  | fuel + 1, i, ad, csI, dsI => by
      have hnext (j : Nat) : entry (ad + 8) j = entry ad (j + 1) := by
        rw [entry, entry, BitVec.add_assoc, Nat.mul_add, Nat.add_comm, BitVec.ofNat_add]
        rfl
      have hzero : entry ad 0 = ad := BitVec.add_zero ad
      rw [pickLoop]
      by_cases hlt : ad < lim
      · rw [if_pos hlt, pickLoop_iff lim fuel, Nat.exists_lt_succ_left, hzero]
        simp only [hlt, not_true_eq_false, false_and, and_false, false_or, hnext,
          Nat.forall_lt_succ_left, Nat.exists_lt_succ_left, hzero, true_and, add_zero,
          add_right_comm i 1, add_assoc i, picked_ne_zero_iff, or_assoc]
        rfl
      · rw [if_neg hlt, Nat.exists_lt_succ_left, hzero]
        simp only [Nat.forall_lt_succ_left, hzero, hlt, false_and, and_false, exists_false, or_false]
        simp

theorem stops_iff (base limit : Addr) {n : Nat} (hn : 0 < n) :
    ((∀ j < n, entry base j < base + limit + 1) ∧ ¬entry base n < base + limit + 1) ↔
      base.toNat + 8 * n < 2 ^ 32 ∧ n = (limit.toNat + 8) / 8 := by
  have hbase := base.isLt
  have hlimit := limit.isLt
  have hentry (j : Nat) : entry base j < base + limit + 1 ↔
      (base.toNat + 8 * j) % 2 ^ 32 < (base.toNat + limit.toNat + 1) % 2 ^ 32 := by
    rw [BitVec.lt_def, entry]
    simp only [BitVec.toNat_add, BitVec.toNat_ofNat, show (1 : Addr).toNat = 1 from rfl]
    omega
  simp only [hentry]
  constructor
  · rintro ⟨hbefore, hend⟩
    have hfirst := hbefore 0 hn
    have hfits : base.toNat + 8 * n < 2 ^ 32 := by
      by_contra hover
      have hlast := hbefore ((2 ^ 32 - 1 - base.toNat) / 8) (by omega)
      omega
    have hprev := hbefore (n - 1) (by omega)
    omega
  · rintro ⟨hfits, rfl⟩
    refine ⟨fun j hj => ?_, ?_⟩ <;> omega

theorem hasSegments_iff (base limit : Addr) :
    (∃ c d, pickLoop mem (base + limit + 1) (2 ^ 32) 0 base 0 0 = .ok (c, d) ∧ c ≠ 0 ∧ d ≠ 0) ↔
      HasSegments mem base limit := by
  simp only [pickLoop_iff, ne_eq, not_true_eq_false, false_or, zero_add]
  constructor
  · rintro ⟨n, -, hbefore, hend, ⟨i, hi, hi0, hcode⟩, j, hj, hj0, hdata⟩
    obtain ⟨hfits, rfl⟩ := (stops_iff base limit (by omega)).mp ⟨hbefore, hend⟩
    exact ⟨hfits, ⟨i, by omega, by omega, hcode⟩, j, by omega, by omega, hdata⟩
  · rintro ⟨hfits, ⟨i, hi0, hi, hcode⟩, j, hj0, hj, hdata⟩
    obtain ⟨hbefore, hend⟩ :=
      (stops_iff base limit (by omega : 0 < (limit.toNat + 8) / 8)).mpr ⟨hfits, rfl⟩
    exact ⟨_, by omega, hbefore, hend, ⟨i, by omega, by omega, hcode⟩, j, by omega, by omega, hdata⟩

theorem pickSegmentRegs_cases (vm : Machine) :
    (HasSegments vm.mem vm.gdtrBase vm.gdtrLimit ∧ ∃ cs ds, vm.pickSegmentRegs =
        .ok (0, { vm with cs := cs, ss := ds, ds := ds, es := ds, fs := ds, gs := ds })) ∨
      ¬HasSegments vm.mem vm.gdtrBase vm.gdtrLimit ∧
        ((∃ e, vm.pickSegmentRegs = .error e) ∨ vm.pickSegmentRegs = .ok (-1, vm)) := by
  rw [← hasSegments_iff, Machine.pickSegmentRegs]
  cases hloop : pickLoop vm.mem (vm.gdtrBase + vm.gdtrLimit + 1) (2 ^ 32) 0 vm.gdtrBase 0 0 with
  | error e => exact .inr ⟨nofun, .inl ⟨e, rfl⟩⟩
  | ok picked =>
    by_cases hboth : picked.1 ≠ 0 ∧ picked.2 ≠ 0
    · exact .inl ⟨⟨_, _, rfl, hboth⟩, _, _, if_pos hboth⟩
    · refine .inr ⟨?_, .inr (if_neg hboth)⟩
      rintro ⟨c, d, heq, hne⟩
      cases heq
      exact hboth hne

namespace Enters

variable {vm : Machine} {pre : List (BitVec 8)} (h : Enters vm pre) (ivt : BitVec 8 → Farptr)
  (ports : Ports)
include h

theorem handleGPF_eq : vm.handleGPF ivt ports = vm.movToCr0 (vm.opcodeAddr pre + 1) := by
  have hop := h.fetched.opcode
  have hopcode : vm.mem (vm.codeAddr + BitVec.ofNat 32 pre.length + 1#32) = 0x22 := h.opcode
  rw [h.fetched.handleGPF_eq (by decide), Machine.opcodeAddr]
  simp [Machine.execute, hop, hopcode]

theorem handleGPF_cases :
    (HasSegments vm.mem vm.gdtrBase vm.gdtrLimit ∧ ∃ vm', vm.handleGPF ivt ports = .ok (0, vm') ∧
        vm'.cs = (vm.farJump (vm.opcodeAddr pre + 1 + 1 + 1)).cs) ∨
      ¬HasSegments vm.mem vm.gdtrBase vm.gdtrLimit ∧
        ∀ vm', vm.handleGPF ivt ports ≠ .ok (0, vm') := by
  rw [h.handleGPF_eq, Machine.movToCr0]
  dsimp only [decodeModrm32]
  rw [if_pos h.enables]
  obtain ⟨hhas, cs, ds, hpick⟩ | ⟨hhas, ⟨e, hpick⟩ | hpick⟩ :=
    pickSegmentRegs_cases { vm with realmode := false, rflags := vm.rflags &&& ~~~fVm }
  · rw [hpick]
    dsimp only [bind, Except.bind]
    rw [if_neg (by decide), if_pos ⟨h.operand, h.jump⟩]
    exact .inl ⟨hhas, _, rfl, rfl⟩
  · rw [hpick]
    exact .inr ⟨hhas, nofun⟩
  · rw [hpick]
    exact .inr ⟨hhas, nofun⟩

end Enters

/-- CS is that of the far jump's descriptor if and only if the GDT has segments for
`pick_segment_regs`, and the upper half of the descriptor's base is 0. -/
theorem handleGPF_installed_iff (vm : Machine) (ivt : BitVec 8 → Farptr) (ports : Ports)
    (pre : List (BitVec 8)) (h : Enters vm pre) :
    let i := (vm.target pre >>> 3).toNat
    (∃ vm', vm.handleGPF ivt ports = .ok (0, vm') ∧ Installed vm vm' i) ↔
      HasSegments vm.mem vm.gdtrBase vm.gdtrLimit ∧
        vm.mem (entry vm.gdtrBase i + 4) = 0 ∧ vm.mem (entry vm.gdtrBase i + 7) = 0 := by
  intro i
  obtain ⟨hhas, vm', hok, hcs⟩ | ⟨hhas, hnot⟩ := h.handleGPF_cases ivt ports
  · have harch : BitVec.ofNat 32 (descriptorAt vm.mem (entry vm.gdtrBase i)).base =
        archBase vm.mem (entry vm.gdtrBase i) := by
      rw [base_descriptorAt, BitVec.ofNat_toNat, BitVec.setWidth_eq]
    rw [and_iff_right hhas, ← jumpBase_iff]
    constructor
    · rintro ⟨_, hvm, hinstalled⟩
      cases hok.symm.trans hvm
      rw [← hinstalled.base, hcs]
      rfl
    · intro hbase
      have hinstalled : vm'.cs.base = archBase vm.mem (entry vm.gdtrBase i) := by rwa [hcs]
      refine ⟨vm', hok, hinstalled, ?_, ?_, harch.trans hinstalled.symm, fun k selector hk => ?_⟩
      · rw [hcs]
        exact segmentLimit_descriptorAt _ _
      · rw [hcs]
        exact access_descriptorAt _ _
      · rw [Task.Kernel.lookupTss, hk]
        exact harch.trans hinstalled.symm
  · exact iff_of_false (fun hex => hex.elim fun vm' hvm => hnot vm' hvm.1) fun hall => hhas hall.1

/-- A guest before its MOV to CR0 and its far jump to 0008:00000000.  The GDT at address 0 has a
code and a data segment. -/
def Machine.entering (high : Bool) : Machine :=
  let bytes : List (BitVec 8) := [0, 0, 0, 0, 0, 0, 0, 0,
    0xFF, 0xFF, 0, 0, if high then 1 else 0, 0x9A, 0xCF, 0, 0xFF, 0xFF, 0, 0, 0, 0x92, 0xCF, 0,
    0x0F, 0x22, 0xC0, 0x66, 0xEA, 0, 0, 0, 0, 8, 0]
  { Machine.realMode 0 0x18 0 0 fun a => bytes.getD a.toNat 0 with
    gdtrLimit := 0x17
    regs := ⟨0, 0, 0, 0, 0, 0, 0, 1⟩ }

theorem entering_enters (high : Bool) : Enters (Machine.entering high) [] where
  fetched := .nil rfl
  opcode := rfl
  enables := by revert high; decide
  operand := rfl
  jump := rfl

theorem entering_hasSegments (high : Bool) :
    HasSegments (Machine.entering high).mem 0 0x17 where
  ends := by decide
  code := ⟨1, by decide, by decide, by revert high; decide⟩
  data := ⟨2, by decide, by decide, by revert high; decide⟩

theorem handleGPF_installed_iff_flat :
    ∃ vm', (Machine.entering false).handleGPF (fun _ => ⟨0, 0⟩) (fun _ _ _ => 0) = .ok (0, vm') ∧
      Installed (Machine.entering false) vm' 1 :=
  (handleGPF_installed_iff _ _ _ [] (entering_enters false)).mpr
    ⟨entering_hasSegments false, by decide, by decide⟩

/-- The descriptor has the base 0x10000, and the monitor installs 0x100. -/
theorem far_jump_misplaces_base :
    let vm := Machine.entering true
    ∃ vm', vm.handleGPF (fun _ => ⟨0, 0⟩) (fun _ _ _ => 0) = .ok (0, vm') ∧
      vm'.cs.sel = 8 ∧ vm'.cs.base = 0x100 ∧ archBase vm.mem (entry vm.gdtrBase 1) = 0x10000 ∧
      (loadSegment vm.mem vm.gdtrBase 1).base = 0x10000 := by
  obtain ⟨-, vm', hok, hcs⟩ | ⟨hhas, -⟩ :=
    (entering_enters true).handleGPF_cases (fun _ => ⟨0, 0⟩) (fun _ _ _ => 0)
  · refine ⟨vm', hok, ?_, ?_, by decide, by decide⟩
    · rw [hcs]
      decide
    · rw [hcs]
      decide
  · exact absurd (entering_hasSegments true) hhas

end Quest.Vm
