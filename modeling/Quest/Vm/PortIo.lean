import Quest.Vm.Segments

/-! Port instructions.  What the processor does to the registers, and when the monitor does it. -/
namespace Quest.Vm

open BitVec

def Prefixes.sized (p : Prefixes) (old new : BitVec 32) : BitVec 32 :=
  if p.a32 then new else old.extractLsb' 16 16 ++ new.extractLsb' 0 16

def GpRegisters.elements (r : GpRegisters) (p : Prefixes) : Nat :=
  if p.rep then (if p.a32 then r.ecx.toNat else (r.ecx.extractLsb' 0 16).toNat) else 1

def Width.advance (width : Width) (reverse : Bool) (n : Nat) (x : BitVec 32) : BitVec 32 :=
  if reverse then x - BitVec.ofNat 32 (n * width.bytes) else x + BitVec.ofNat 32 (n * width.bytes)

def GpRegisters.index (r : GpRegisters) (p : Prefixes) (width : Width) (reverse : Bool)
    (x : BitVec 32) : BitVec 32 :=
  p.sized x (width.advance reverse (r.elements p) x)

def GpRegisters.counter (r : GpRegisters) (p : Prefixes) : BitVec 32 :=
  if p.rep then p.sized r.ecx 0 else r.ecx

def Machine.portValue (vm : Machine) (ports : Ports) (pre : List (BitVec 8)) (width : Width)
    (immediate : Bool) : BitVec 32 :=
  ports (vm.port (vm.codeAddr + BitVec.ofNat 32 pre.length) immediate).1 width 0 &&& width.mask

def Accesses (vm vm' : Machine) (n : Nat) : Prop := ∃ io, vm'.io = vm.io ++ io ∧ io.length = n

/-- What the processor does to the registers, and how many elements it transfers. -/
def Architectural (vm vm' : Machine) (ports : Ports) (pre : List (BitVec 8)) : Insn → Prop :=
  let p := Prefixes.none.after pre
  let reverse : Bool := vm.rflags &&& fDf ≠ 0
  fun
  | .input wide immediate =>
      let width := Insn.width p wide
      Accesses vm vm' 1 ∧ vm'.regs = { vm.regs with
        eax := (vm.regs.eax &&& ~~~width.mask) ||| vm.portValue ports pre width immediate }
  | .output _ _ => Accesses vm vm' 1 ∧ vm'.regs = vm.regs
  | .ins wide => Accesses vm vm' (vm.regs.elements p) ∧ vm'.regs = { vm.regs with
      edi := vm.regs.index p (Insn.width p wide) reverse vm.regs.edi
      ecx := vm.regs.counter p }
  | .outs wide => Accesses vm vm' (vm.regs.elements p) ∧ vm'.regs = { vm.regs with
      esi := vm.regs.index p (Insn.width p wide) reverse vm.regs.esi
      ecx := vm.regs.counter p }
  | _ => Accesses vm vm' 0 ∧ vm'.regs = vm.regs

/-- Nothing has to be cleared in AL or AX; a string instruction has nothing to transfer. -/
def Untouched (vm : Machine) (ports : Ports) (pre : List (BitVec 8)) : Insn → Prop :=
  let p := Prefixes.none.after pre
  fun
  | .input wide immediate =>
      let width := Insn.width p wide
      width = .dword ∨
        vm.regs.eax &&& width.mask &&& ~~~vm.portValue ports pre width immediate = 0
  | .ins _ | .outs _ => vm.regs.elements p = 0
  | _ => True

theorem or_eq_replace_iff (e m x : BitVec 32) :
    e ||| (m &&& (x &&& m)) = (e &&& ~~~m) ||| (x &&& m) ↔ e &&& m &&& ~~~(x &&& m) = 0 := by
  have hbits (i : Nat) (hi : i < 32) :
      (e ||| (m &&& (x &&& m))).getLsbD i = ((e &&& ~~~m) ||| (x &&& m)).getLsbD i ↔
        (e &&& m &&& ~~~(x &&& m)).getLsbD i = (0 : BitVec 32).getLsbD i := by
    simp only [getLsbD_or, getLsbD_and, getLsbD_not, hi, decide_true,
      Bool.true_and, show (0 : BitVec 32).getLsbD i = false from getLsbD_zero]
    cases e.getLsbD i <;> cases m.getLsbD i <;> cases x.getLsbD i <;> decide
  constructor
  · intro h
    exact eq_of_getLsbD_eq fun i hi => (hbits i hi).mp (congrArg (getLsbD · i) h)
  · intro h
    exact eq_of_getLsbD_eq fun i hi => (hbits i hi).mpr (congrArg (getLsbD · i) h)

theorem sized_self (p : Prefixes) (x : BitVec 32) : p.sized x x = x := by
  rw [Prefixes.sized]
  split
  · rfl
  · exact append_extractLsb' (m := 16) (n := 16) x

theorem extract_sized (p : Prefixes) (x y : BitVec 32) :
    (p.sized x y).extractLsb' 0 16 = y.extractLsb' 0 16 := by
  rw [Prefixes.sized]
  split
  · rfl
  · exact extractLsb'_append_eq_right

variable {vm : Machine} {r : GpRegisters} {p : Prefixes}

theorem index_ne (hrep : p.rep = false) (width : Width) (reverse : Bool) (x : BitVec 32) :
    r.index p width reverse x ≠ x := by
  intro h
  have hlow := congrArg (BitVec.toNat ∘ BitVec.extractLsb' 0 16) h
  simp only [Function.comp, GpRegisters.index, extract_sized, GpRegisters.elements, hrep,
    Bool.false_eq_true, if_false, Width.advance, one_mul] at hlow
  cases width <;> cases reverse <;>
    simp [Width.bytes, extractLsb'_toNat, toNat_add, toNat_sub] at hlow <;>
    omega

theorem counter_eq_iff (hrep : p.rep = true) : r.counter p = r.ecx ↔ r.elements p = 0 := by
  rw [GpRegisters.counter, if_pos hrep, GpRegisters.elements, if_pos hrep]
  split
  · rename_i ha32
    rw [Prefixes.sized, if_pos ha32, eq_comm, ← toNat_inj]
    rfl
  · rename_i ha32
    constructor
    · intro h
      rw [← h, extract_sized]
      rfl
    · intro h
      have hlow : r.ecx.extractLsb' 0 16 = (0 : BitVec 32).extractLsb' 0 16 :=
        eq_of_toNat_eq h
      rw [Prefixes.sized, if_neg ha32, ← hlow]
      exact append_extractLsb' (m := 16) (n := 16) r.ecx

theorem index_counter_iff (width : Width) (reverse : Bool) (x : BitVec 32) :
    r.index p width reverse x = x ∧ r.counter p = r.ecx ↔ r.elements p = 0 := by
  cases hrep : p.rep with
  | false =>
    refine iff_of_false (fun h => index_ne hrep width reverse x h.1) ?_
    simp [GpRegisters.elements, hrep]
  | true =>
    rw [counter_eq_iff hrep]
    refine and_iff_right_of_imp fun hnone => ?_
    rw [GpRegisters.index, hnone, Width.advance]
    simp [sized_self]

theorem cx_eq_zero (h : vm.regs.elements p = 0) : vm.cx p = 0 := by
  cases hrep : p.rep with
  | false => simp [GpRegisters.elements, hrep] at h
  | true =>
    rw [GpRegisters.elements, if_pos hrep] at h
    rw [Machine.cx, if_pos hrep, toNat_and]
    change vm.regs.ecx.toNat &&& 2 ^ 16 - 1 = 0
    rw [Nat.and_two_pow_sub_one_eq_mod]
    split at h
    · rw [h]
    · simpa [extractLsb'_toNat] using h

theorem ins_length (ports : Ports) (width : Width) (reverse : Bool) (port : BitVec 16) :
    ∀ (n k : Nat) (dst : Addr) (mem : Mem),
      (ins ports width reverse port n k dst mem).2.length = n
  | 0, _, _, _ => rfl
  | n + 1, k, _, _ => congrArg (· + 1) (ins_length ports width reverse port n (k + 1) _ _)

theorem outs_length (width : Width) (reverse : Bool) (port : BitVec 16) (mem : Mem) :
    ∀ (n : Nat) (src : Addr), (outs width reverse port mem n src).length = n
  | 0, _ => rfl
  | n + 1, _ => congrArg (· + 1) (outs_length width reverse port mem n _)

theorem inPort_eax_iff (vm : Machine) (ports : Ports) (width : Width) (immediate : Bool)
    (eip : Addr) :
    let v := ports (vm.port eip immediate).1 width 0 &&& width.mask
    (vm.inPort ports width immediate eip).regs =
        { vm.regs with eax := (vm.regs.eax &&& ~~~width.mask) ||| v } ↔
      width = .dword ∨ vm.regs.eax &&& width.mask &&& ~~~v = 0 := by
  intro v
  have hregs (e e' : BitVec 32) :
      { vm.regs with eax := e } = { vm.regs with eax := e' } ↔ e = e' := by simp
  have hreplace := or_eq_replace_iff vm.regs.eax width.mask (ports (vm.port eip immediate).1 width 0)
  cases width with
  | byte | word => exact (hregs _ _).trans (hreplace.trans (or_iff_right nofun).symm)
  | dword =>
    refine iff_of_true ((hregs _ _).mpr ?_) (.inl rfl)
    change v = (vm.regs.eax &&& 0#32) ||| v
    rw [and_zero, zero_or]

theorem architectural_next_iff (insn : Insn) (vm : Machine) (ivt : BitVec 8 → Farptr)
    (ports : Ports) (pre : List (BitVec 8)) :
    Architectural vm (insn.next vm ivt ports pre) ports pre insn ↔ Untouched vm ports pre insn := by
  have hnothing : vm.io = vm.io ++ [] := (List.append_nil _).symm
  cases insn with
  | int | popf | iret | cli | sti => exact iff_of_true ⟨⟨[], hnothing, rfl⟩, rfl⟩ trivial
  | pushf =>
    refine iff_of_true ?_ trivial
    rw [Insn.next, Insn.emulate, Machine.pushf]
    split <;> exact ⟨⟨[], hnothing, rfl⟩, rfl⟩
  | input wide immediate =>
    have haccess : Accesses vm (Insn.next (.input wide immediate) vm ivt ports pre) 1 :=
      ⟨[_], rfl, rfl⟩
    exact (and_iff_right haccess).trans (inPort_eax_iff vm ports _ immediate _)
  | output wide immediate => exact iff_of_true ⟨⟨[_], rfl, rfl⟩, rfl⟩ trivial
  | ins wide =>
    rw [Untouched, ← index_counter_iff (Insn.width (Prefixes.none.after pre) wide)
      (vm.rflags &&& fDf ≠ 0) vm.regs.edi]
    constructor
    · rintro ⟨-, hregs⟩
      exact ⟨(congrArg GpRegisters.edi hregs).symm, (congrArg GpRegisters.ecx hregs).symm⟩
    · intro h
      have hnone := (index_counter_iff _ _ _).mp h
      refine ⟨⟨_, rfl, ?_⟩, ?_⟩
      · rw [ins_length, cx_eq_zero hnone, hnone]
      · rw [h.1, h.2]
        rfl
  | outs wide =>
    rw [Untouched, ← index_counter_iff (Insn.width (Prefixes.none.after pre) wide)
      (vm.rflags &&& fDf ≠ 0) vm.regs.esi]
    constructor
    · rintro ⟨-, hregs⟩
      exact ⟨(congrArg GpRegisters.esi hregs).symm, (congrArg GpRegisters.ecx hregs).symm⟩
    · intro h
      have hnone := (index_counter_iff _ _ _).mp h
      refine ⟨⟨_, rfl, ?_⟩, ?_⟩
      · rw [outs_length, cx_eq_zero hnone, hnone]
      · rw [h.1, h.2]
        rfl

/-- The monitor does what the processor does if and only if nothing has to be cleared in AL or AX,
and a string instruction has nothing to do. -/
theorem handleGPF_architectural_iff (insn : Insn) (vm : Machine) (ivt : BitVec 8 → Farptr)
    (ports : Ports) (pre : List (BitVec 8)) (h : Fetched vm pre insn.opcode) :
    (∃ vm', vm.handleGPF ivt ports = .ok (0, vm') ∧ Architectural vm vm' ports pre insn) ↔
      Untouched vm ports pre insn := by
  rw [insn.exists_handleGPF_iff h, architectural_next_iff]

theorem handleGPF_architectural_iff_inl :
    let vm := Machine.realMode 0xF000 0 0 0 fun a => if a = 0xF0000 then 0x66 else 0xED
    ∃ vm', vm.handleGPF (fun _ => ⟨0, 0⟩) (fun _ _ _ => 0xCF8) = .ok (0, vm') ∧
      Architectural vm vm' (fun _ _ _ => 0xCF8) [0x66] (.input true false) := by
  refine (handleGPF_architectural_iff (.input true false) _ _ _ [0x66]
    ⟨by decide, ?_, by decide⟩).mpr (.inl (by decide))
  intro i hi
  obtain rfl : i = 0 := Nat.lt_one_iff.mp hi
  rfl

/-- IN with 0xFF in AL, of a port that reads as 0: AL stays 0xFF.  INSB leaves DI where it is. -/
theorem in_keeps_al :
    let guest (op : BitVec 8) : Machine :=
      { Machine.realMode 0xF000 0 0 0 fun _ => op with regs := ⟨0, 0, 0, 0, 0, 0, 0, 0xFF⟩ }
    (∃ vm', (guest 0xEC).handleGPF (fun _ => ⟨0, 0⟩) (fun _ _ _ => 0) = .ok (0, vm') ∧
      vm'.regs.eax = 0xFF ∧
      ¬Architectural (guest 0xEC) vm' (fun _ _ _ => 0) [] (.input false false)) ∧
    ∃ vm', (guest 0x6C).handleGPF (fun _ => ⟨0, 0⟩) (fun _ _ _ => 0) = .ok (0, vm') ∧
      vm'.regs.edi = 0 ∧ ¬Architectural (guest 0x6C) vm' (fun _ _ _ => 0) [] (.ins false) := by
  refine ⟨⟨_, (Insn.input false false).handleGPF_next (.nil rfl) _ _, rfl, ?_⟩,
    _, (Insn.ins false).handleGPF_next (.nil rfl) _ _, rfl, ?_⟩
  · rintro ⟨-, hregs⟩
    exact absurd (congrArg GpRegisters.eax hregs) (by decide)
  · rintro ⟨-, hregs⟩
    exact absurd (congrArg GpRegisters.edi hregs) (by decide)

end Quest.Vm
