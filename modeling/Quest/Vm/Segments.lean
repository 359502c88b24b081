import Quest.Vm.Gpf

/-! Segments of a guest in real mode.  The monitor computes IP and SP through linear addresses. -/
namespace Quest.Vm

open BitVec

namespace Machine

def ip (vm : Machine) : BitVec 16 := vm.rip.setWidth 16

def sp (vm : Machine) : BitVec 16 := vm.rsp.setWidth 16

end Machine

/-- A guest in real mode with CS:IP, SS:SP and memory, everything else zero. -/
def Machine.realMode (cs ip ss sp : BitVec 16) (mem : Mem) : Machine :=
  let segment (sel : BitVec 16) : Segment := ⟨sel, sel.setWidth 32 <<< 4, 0xFFFF, 0xF3⟩
  { rip := ip.setWidth 32
    rsp := sp.setWidth 32
    rflags := fVm
    cr0 := 0
    cs := segment cs
    ss := segment ss
    ds := segment 0
    es := segment 0
    fs := segment 0
    gs := segment 0
    gdtrBase := 0
    gdtrLimit := 0
    regs := ⟨0, 0, 0, 0, 0, 0, 0, 0⟩
    realmode := true
    mem
    io := [] }

namespace Insn

def length : Insn → Nat
  | int => 2
  | input _ immediate | output _ immediate => if immediate then 2 else 1
  | _ => 1

def Straight : Insn → Prop
  | int | iret => False
  | _ => True

def UsesStack : Insn → Prop
  | pushf | popf => True
  | _ => False

def operandSize (p : Prefixes) : Nat := if p.o32 then 4 else 2

def moveSp (p : Prefixes) (sp : Nat) : Insn → Nat
  | pushf => sp - operandSize p
  | popf => sp + operandSize p
  | _ => sp

def SpFits (p : Prefixes) (sp : Nat) : Insn → Prop
  | pushf => operandSize p ≤ sp
  | popf => sp + operandSize p < 2 ^ 16
  | _ => True

end Insn

/-- Between `vm` and `vm'` the guest went over an instruction of `len` bytes, with `sp`
behind it. -/
structure Sequential (vm vm' : Machine) (len sp : Nat) : Prop where
  cs : vm'.cs.sel = vm.cs.sel
  ss : vm'.ss.sel = vm.ss.sel
  ip : vm'.ip.toNat = vm.ip.toNat + len
  sp : vm'.sp.toNat = sp
  near : ∀ offs, realToLin32 vm'.cs.sel offs = realToLin32 vm.cs.sel offs

theorem segm_lin32ToFp_aligned (p : Addr) : (lin32ToFp p).segm.toNat % 0x1000 = 0 := by
  rw [toNat_segm_lin32ToFp]
  omega

theorem lin32ToFp_realToLin32 {s : BitVec 16} (hs : s.toNat % 0x1000 = 0) (o : BitVec 16) :
    lin32ToFp (realToLin32 s o) = ⟨o, s⟩ := by
  have hoffs : (lin32ToFp (realToLin32 s o)).offs = o := by
    apply eq_of_toNat_eq
    rw [toNat_offs_lin32ToFp, toNat_realToLin32]
    omega
  have hsegm : (lin32ToFp (realToLin32 s o)).segm = s := by
    apply eq_of_toNat_eq
    rw [toNat_segm_lin32ToFp, toNat_realToLin32]
    omega
  exact Farptr.ext hoffs hsegm

theorem realToLin32_add (s : BitVec 16) {o : BitVec 16} {n : Nat} (h : o.toNat + n < 2 ^ 16) :
    realToLin32 s o + BitVec.ofNat 32 n = realToLin32 s (o + BitVec.ofNat 16 n) := by
  apply eq_of_toNat_eq
  simp only [toNat_add, toNat_realToLin32, toNat_ofNat]
  omega

theorem realToLin32_sub (s : BitVec 16) {o : BitVec 16} {n : Nat} (h : n ≤ o.toNat) :
    realToLin32 s o - BitVec.ofNat 32 n = realToLin32 s (o - BitVec.ofNat 16 n) := by
  apply eq_of_toNat_eq
  simp only [toNat_sub, toNat_realToLin32, toNat_ofNat]
  omega

namespace Insn

variable {insn : Insn} (vm : Machine) (ivt : BitVec 8 → Farptr) (ports : Ports)
  (pre : List (BitVec 8))

theorem next_ip (hs : insn.Straight) :
    (insn.next vm ivt ports pre).cs.sel =
        (lin32ToFp (vm.codeAddr + BitVec.ofNat 32 (pre.length + insn.length))).segm ∧
      (insn.next vm ivt ports pre).ip =
        (lin32ToFp (vm.codeAddr + BitVec.ofNat 32 (pre.length + insn.length))).offs := by
  have hip (fp : Farptr) : (fp.offs.setWidth 32).setWidth 16 = fp.offs := by simp
  rw [BitVec.ofNat_add, ← BitVec.add_assoc]
  cases insn with
  | int | iret => exact hs.elim
  | pushf =>
      simp only [next, emulate, Machine.pushf]
      split <;> exact ⟨rfl, hip _⟩
  | popf | cli | sti | ins wide | outs wide => exact ⟨rfl, hip _⟩
  | input wide immediate | output wide immediate => cases immediate <;> exact ⟨rfl, hip _⟩

def stackAfter (p : Prefixes) (stk : Addr) : Insn → Addr
  | pushf => stk - BitVec.ofNat 32 (operandSize p)
  | popf => stk + BitVec.ofNat 32 (operandSize p)
  | _ => stk

theorem next_sp_of_usesStack (hu : insn.UsesStack) :
    (insn.next vm ivt ports pre).ss.sel =
        (lin32ToFp (insn.stackAfter (Prefixes.none.after pre) vm.stackAddr)).segm ∧
      (insn.next vm ivt ports pre).sp =
        (lin32ToFp (insn.stackAfter (Prefixes.none.after pre) vm.stackAddr)).offs := by
  have hsp (fp : Farptr) : (fp.offs.setWidth 32).setWidth 16 = fp.offs := by simp
  cases insn with
  | pushf =>
      simp only [next, emulate, Machine.pushf, stackAfter, operandSize]
      split <;> exact ⟨rfl, hsp _⟩
  | popf =>
      simp only [next, emulate, Machine.popf, stackAfter, operandSize]
      split <;> exact ⟨rfl, hsp _⟩
  | _ => exact hu.elim

theorem next_sp_of_not_usesStack (hs : insn.Straight) (hu : ¬insn.UsesStack) :
    (insn.next vm ivt ports pre).ss.sel = vm.ss.sel ∧
      (insn.next vm ivt ports pre).sp = vm.sp := by
  cases insn with
  | int | iret => exact hs.elim
  | pushf | popf => exact absurd trivial hu
  | _ => exact ⟨rfl, rfl⟩

theorem next_sp_of_aligned (hu : insn.UsesStack) (hss : vm.ss.sel.toNat % 0x1000 = 0)
    (hfit : insn.SpFits (Prefixes.none.after pre) vm.sp.toNat) :
    (insn.next vm ivt ports pre).ss.sel = vm.ss.sel ∧
      (insn.next vm ivt ports pre).sp.toNat =
        insn.moveSp (Prefixes.none.after pre) vm.sp.toNat := by
  have hsp := vm.sp.isLt
  obtain ⟨hsel, hoffs⟩ := next_sp_of_usesStack vm ivt ports pre hu
  rw [hsel, hoffs]
  cases insn with
  | pushf =>
      simp only [SpFits] at hfit
      rw [stackAfter, Machine.stackAddr, ← Machine.sp, realToLin32_sub _ hfit,
        lin32ToFp_realToLin32 hss, moveSp]
      refine ⟨rfl, ?_⟩
      simp only [toNat_sub, toNat_ofNat]
      omega
  | popf =>
      simp only [SpFits] at hfit
      rw [stackAfter, Machine.stackAddr, ← Machine.sp, realToLin32_add _ hfit,
        lin32ToFp_realToLin32 hss, moveSp]
      refine ⟨rfl, ?_⟩
      simp only [toNat_add, toNat_ofNat]
      omega
  | _ => exact hu.elim

end Insn

/-- An instruction that does not branch leaves the segments alone, and moves IP and SP as the CPU
does, if and only if the segments that are computed again start at 64 KiB. -/
theorem handleGPF_sequential_iff (insn : Insn) (vm : Machine) (ivt : BitVec 8 → Farptr)
    (ports : Ports) (pre : List (BitVec 8)) (hs : insn.Straight) (h : Fetched vm pre insn.opcode)
    (hip : vm.ip.toNat + (pre.length + insn.length) < 2 ^ 16)
    (hsp : insn.SpFits (Prefixes.none.after pre) vm.sp.toNat) :
    (∃ vm', vm.handleGPF ivt ports = .ok (0, vm') ∧
        Sequential vm vm' (pre.length + insn.length)
          (insn.moveSp (Prefixes.none.after pre) vm.sp.toNat)) ↔
      vm.cs.sel.toNat % 0x1000 = 0 ∧ (insn.UsesStack → vm.ss.sel.toNat % 0x1000 = 0) := by
  rw [insn.exists_handleGPF_iff h]
  obtain ⟨hcs, hoffs⟩ := Insn.next_ip vm ivt ports pre hs
  constructor
  · intro hseq
    refine ⟨?_, fun hu => ?_⟩
    · rw [← hseq.cs, hcs]
      exact segm_lin32ToFp_aligned _
    · rw [← hseq.ss, (Insn.next_sp_of_usesStack vm ivt ports pre hu).1]
      exact segm_lin32ToFp_aligned _
  · rintro ⟨hcode, hstack⟩
    rw [Machine.codeAddr, ← Machine.ip, realToLin32_add _ hip, lin32ToFp_realToLin32 hcode]
      at hcs hoffs
    have hstk : (insn.next vm ivt ports pre).ss.sel = vm.ss.sel ∧
        (insn.next vm ivt ports pre).sp.toNat =
          insn.moveSp (Prefixes.none.after pre) vm.sp.toNat := by
      by_cases hu : insn.UsesStack
      · exact Insn.next_sp_of_aligned vm ivt ports pre hu (hstack hu) hsp
      · obtain ⟨hss, hsame⟩ := Insn.next_sp_of_not_usesStack vm ivt ports pre hs hu
        refine ⟨hss, ?_⟩
        rw [hsame]
        cases insn <;> first | rfl | exact absurd trivial hu
    refine ⟨hcs, hstk.1, ?_, hstk.2, fun offs => by rw [hcs]⟩
    rw [hoffs]
    simp only [toNat_add, toNat_ofNat]
    omega

theorem handleGPF_sequential_iff_pushf :
    ∃ vm', (Machine.realMode 0xF000 0x10 0x1000 0x100 fun a =>
          if a = 0xF0010 then 0x66 else 0x9C).handleGPF (fun _ => ⟨0, 0⟩) (fun _ _ _ => 0) =
        .ok (0, vm') ∧
      Sequential (Machine.realMode 0xF000 0x10 0x1000 0x100 fun a =>
        if a = 0xF0010 then 0x66 else 0x9C) vm' 2 0xFC := by
  refine (handleGPF_sequential_iff .pushf _ _ _ [0x66] trivial ⟨by decide, ?_, by decide⟩
    (by decide) (show Insn.operandSize _ ≤ _ by decide)).mpr ⟨by decide, fun _ => by decide⟩
  intro i hi
  obtain rfl : i = 0 := Nat.lt_one_iff.mp hi
  rfl

/-- CLI at 07C0:0000 leads to 0000:7C01, and a near jump to offset 0x10 then goes elsewhere. -/
theorem cli_changes_segment :
    ∃ vm', (Machine.realMode 0x07C0 0 0 0x7C00 fun _ => 0xFA).handleGPF (fun _ => ⟨0, 0⟩)
        (fun _ _ _ => 0) = .ok (0, vm') ∧
      vm'.cs.sel = 0 ∧ vm'.ip = 0x7C01 ∧
      realToLin32 vm'.cs.sel 0x10 ≠ realToLin32 0x07C0 0x10 := by
  exact ⟨_, Insn.cli.handleGPF_next (.nil rfl) _ _, by decide, by decide, by decide⟩

end Quest.Vm
