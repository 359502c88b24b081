import Mathlib

/-! A guest of the virtual machine monitor: `kernel/include/vm/vmx.h`,
`kernel/include/vm/vm86.h`. -/
namespace Quest.Vm

open Function

abbrev Addr := BitVec 32

abbrev Mem := Addr → BitVec 8

def load16 (mem : Mem) (a : Addr) : BitVec 16 := mem (a + 1) ++ mem a

def load32 (mem : Mem) (a : Addr) : BitVec 32 := load16 mem (a + 2) ++ load16 mem a

def store16 (mem : Mem) (a : Addr) (v : BitVec 16) : Mem :=
  update (update mem a (v.extractLsb' 0 8)) (a + 1) (v.extractLsb' 8 8)

def store32 (mem : Mem) (a : Addr) (v : BitVec 32) : Mem :=
  store16 (store16 mem a (v.extractLsb' 0 16)) (a + 2) (v.extractLsb' 16 16)

theorem append_extractLsb' {m n : Nat} (v : BitVec (m + n)) :
    v.extractLsb' n m ++ v.extractLsb' 0 n = v := by
  ext i hi
  rw [BitVec.getElem_append]
  split
  · rw [BitVec.getElem_extractLsb', zero_add, BitVec.getLsbD_eq_getElem hi]
  · rw [BitVec.getElem_extractLsb', BitVec.getLsbD_eq_getElem (by omega)]
    congr 1
    omega

theorem load16_store16 (mem : Mem) (a : Addr) (v : BitVec 16) : load16 (store16 mem a v) a = v := by
  have hne : a ≠ a + 1 := by bv_omega
  simp only [load16, store16, update_self, update_of_ne hne]
  exact append_extractLsb' (m := 8) (n := 8) v

theorem store16_of_ne {mem : Mem} {a b : Addr} (v : BitVec 16) (h0 : b ≠ a) (h1 : b ≠ a + 1) :
    store16 mem a v b = mem b := by
  simp only [store16, update_of_ne h1, update_of_ne h0]

theorem load16_store16_of_ne {mem : Mem} {a b : Addr} (v : BitVec 16) (h0 : b ≠ a)
    (h1 : b ≠ a + 1) (h2 : b + 1 ≠ a) : load16 (store16 mem a v) b = load16 mem b := by
  have h3 : b + 1 ≠ a + 1 := by bv_omega
  simp only [load16, store16_of_ne v h0 h1, store16_of_ne v h2 h3]

theorem load32_store32 (mem : Mem) (a : Addr) (v : BitVec 32) : load32 (store32 mem a v) a = v := by
  have hlow : load16 (store32 mem a v) a = v.extractLsb' 0 16 := by
    rw [store32, load16_store16_of_ne _ (by bv_omega) (by bv_omega) (by bv_omega), load16_store16]
  rw [load32, hlow, store32, load16_store16]
  exact append_extractLsb' (m := 16) (n := 16) v

structure GpRegisters where
  edi : BitVec 32
  esi : BitVec 32
  ebp : BitVec 32
  esp : BitVec 32
  ebx : BitVec 32
  edx : BitVec 32
  ecx : BitVec 32
  eax : BitVec 32
  deriving DecidableEq

structure Segment where
  sel : BitVec 16
  base : BitVec 32
  limit : BitVec 32
  access : BitVec 32
  deriving DecidableEq

inductive Width where
  | byte
  | word
  | dword
  deriving DecidableEq

def Width.bytes : Width → Nat
  | byte => 1
  | word => 2
  | dword => 4

inductive Io where
  | input (port : BitVec 16) (width : Width) (value : BitVec 32)
  | output (port : BitVec 16) (width : Width) (value : BitVec 32)
  deriving DecidableEq

/-- The values that a port gives, one after the other. -/
abbrev Ports := BitVec 16 → Width → Nat → BitVec 32

/-- The guest state in the VMCS, `guest_regs`, `realmode` and the memory.  `io` are the accesses
to ports so far. -/
structure Machine where
  rip : BitVec 32
  rsp : BitVec 32
  rflags : BitVec 32
  cr0 : BitVec 32
  cs : Segment
  ss : Segment
  ds : Segment
  es : Segment
  fs : Segment
  gs : Segment
  gdtrBase : BitVec 32
  gdtrLimit : BitVec 32
  regs : GpRegisters
  realmode : Bool
  mem : Mem
  io : List Io

@[ext] structure Farptr where
  offs : BitVec 16
  segm : BitVec 16
  deriving DecidableEq

def realToLin32 (s o : BitVec 16) : Addr := (s.setWidth 32 <<< 4) + o.setWidth 32

def lin32ToFp (p : Addr) : Farptr where
  segm := ((p &&& ~~~0xFFFF#32) >>> 4).setWidth 16
  offs := (p &&& 0xFFFF#32).setWidth 16

theorem toNat_realToLin32 (s o : BitVec 16) :
    (realToLin32 s o).toNat = s.toNat * 16 + o.toNat := by
  simp only [realToLin32, BitVec.toNat_add, BitVec.toNat_shiftLeft, BitVec.toNat_setWidth,
    Nat.shiftLeft_eq]
  omega

private theorem segment_bits (p : Addr) : (p &&& ~~~0xFFFF#32) >>> 4 = (p >>> 16) <<< 12 := by
  ext i hi
  interval_cases i <;> simp

theorem toNat_segm_lin32ToFp (p : Addr) :
    (lin32ToFp p).segm.toNat = p.toNat / 2 ^ 16 % 2 ^ 4 * 2 ^ 12 := by
  simp only [lin32ToFp, segment_bits, BitVec.toNat_setWidth, BitVec.toNat_shiftLeft,
    BitVec.toNat_ushiftRight, Nat.shiftLeft_eq, Nat.shiftRight_eq_div_pow]
  omega

theorem toNat_offs_lin32ToFp (p : Addr) : (lin32ToFp p).offs.toNat = p.toNat % 2 ^ 16 := by
  have hm : p.toNat &&& 65535 = p.toNat % 2 ^ 16 := Nat.and_two_pow_sub_one_eq_mod _ 16
  simp only [lin32ToFp, BitVec.toNat_setWidth, BitVec.toNat_and, BitVec.toNat_ofNat,
    Nat.reducePow, Nat.reduceMod, hm]
  omega

theorem toNat_realToLin32_lin32ToFp (p : Addr) :
    (realToLin32 (lin32ToFp p).segm (lin32ToFp p).offs).toNat = p.toNat % 2 ^ 20 := by
  rw [toNat_realToLin32, toNat_segm_lin32ToFp, toNat_offs_lin32ToFp]
  omega

def fIf : BitVec 32 := 0x200

def fDf : BitVec 32 := 0x400

def fVm : BitVec 32 := 0x20000

def fVif : BitVec 32 := 0x80000

def guestFlags : BitVec 32 := 0xDFF

namespace Machine

def setIp (vm : Machine) (fp : Farptr) : Machine :=
  { vm with
    rip := fp.offs.setWidth 32
    cs := { vm.cs with sel := fp.segm, base := fp.segm.setWidth 32 <<< 4 } }

def setSp (vm : Machine) (fp : Farptr) : Machine :=
  { vm with
    rsp := fp.offs.setWidth 32
    ss := { vm.ss with sel := fp.segm, base := fp.segm.setWidth 32 <<< 4 } }

def incIp (vm : Machine) (eip : Addr) (amount : Nat) : Machine :=
  vm.setIp (lin32ToFp (eip + BitVec.ofNat 32 amount))

end Machine

end Quest.Vm
