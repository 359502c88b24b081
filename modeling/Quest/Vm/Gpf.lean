import Quest.Task.Gdt
import Quest.Vm.Guest

/-! The emulation of real-mode instructions (`kernel/vm/vm86.c`) in `vmx_vm86_handle_GPF`. -/
namespace Quest.Vm

structure Prefixes where
  a32 : Bool
  o32 : Bool
  rep : Bool
  repnz : Bool
  deriving DecidableEq

def parse (mem : Mem) : Nat → Addr → Prefixes → Except Fault (Addr × Prefixes)
  | 0, _, _ => .error .diverges
  | fuel + 1, eip, p =>
      if mem eip = 0x66 then parse mem fuel (eip + 1) { p with o32 := true }
      else if mem eip = 0x67 then parse mem fuel (eip + 1) { p with a32 := true }
      else if mem eip = 0xF2 then parse mem fuel (eip + 1) { p with repnz := true }
      else if mem eip = 0xF3 then parse mem fuel (eip + 1) { p with rep := true }
      else .ok (eip, p)

def showVif (eflags word : BitVec 32) : BitVec 32 :=
  if eflags &&& fVif ≠ 0 then word ||| fIf else word &&& ~~~fIf

/-- The flags after a pop of `word`, and the virtual IF after its IF. -/
def popFlags (eflags word : BitVec 32) : BitVec 32 :=
  let newEflags := (word &&& guestFlags) ||| (eflags &&& ~~~guestFlags)
  if word &&& fIf ≠ 0 then newEflags ||| fVif else newEflags &&& ~~~fVif

namespace Machine

def int (vm : Machine) (ivt : BitVec 8 → Farptr) (eip stk : Addr) : Machine :=
  let eflags := vm.rflags
  let dest := ivt (vm.mem (eip + 1))
  let stk := stk - 6
  let vm := vm.setSp (lin32ToFp stk)
  let mem := store16 vm.mem stk (lin32ToFp (eip + 2)).offs
  let mem := store16 mem (stk + 2) (lin32ToFp (eip + 2)).segm
  let mem := store16 mem (stk + 4) ((showVif eflags (eflags &&& 0xFFFF)).setWidth 16)
  { vm with mem, rflags := eflags &&& ~~~fVif }.setIp dest

def pushf (vm : Machine) (p : Prefixes) (eip stk : Addr) : Machine :=
  let word := showVif vm.rflags (vm.rflags &&& guestFlags)
  if p.o32 then
    let stk := stk - 4
    ({ vm with mem := store32 vm.mem stk word }.incIp eip 1).setSp (lin32ToFp stk)
  else
    let stk := stk - 2
    ({ vm with mem := store16 vm.mem stk (word.setWidth 16) }.incIp eip 1).setSp (lin32ToFp stk)

def popf (vm : Machine) (p : Prefixes) (eip stk : Addr) : Machine :=
  let word := if p.o32 then load32 vm.mem stk else (load16 vm.mem stk).setWidth 32
  let stk := if p.o32 then stk + 4 else stk + 2
  ({ vm with rflags := popFlags vm.rflags word }.incIp eip 1).setSp (lin32ToFp stk)

def iret (vm : Machine) (stk : Addr) : Machine :=
  let newEip : Farptr := ⟨load16 vm.mem stk, load16 vm.mem (stk + 2)⟩
  let newEflags := popFlags vm.rflags ((load16 vm.mem (stk + 4)).setWidth 32)
  ({ vm.setIp newEip with rflags := newEflags }).setSp (lin32ToFp (stk + 6))

def cli (vm : Machine) (eip : Addr) : Machine :=
  { vm.incIp eip 1 with rflags := vm.rflags &&& ~~~fVif }

def sti (vm : Machine) (eip : Addr) : Machine :=
  { vm.incIp eip 1 with rflags := vm.rflags ||| fVif }

def port (vm : Machine) (eip : Addr) (immediate : Bool) : BitVec 16 × Nat :=
  if immediate then ((vm.mem (eip + 1)).setWidth 16, 2) else (vm.regs.edx.setWidth 16, 1)

end Machine

def Width.mask : Width → BitVec 32
  | byte => 0xFF
  | word => 0xFFFF
  | dword => 0xFFFFFFFF

def Width.store (width : Width) (mem : Mem) (a : Addr) (v : BitVec 32) : Mem :=
  match width with
  | byte => Function.update mem a (v.setWidth 8)
  | word => store16 mem a (v.setWidth 16)
  | dword => store32 mem a v

def Width.load (width : Width) (mem : Mem) (a : Addr) : BitVec 32 :=
  match width with
  | byte => (mem a).setWidth 32
  | word => (load16 mem a).setWidth 32
  | dword => load32 mem a

/-- The next element of a string. -/
def Width.next (width : Width) (reverse : Bool) (a : Addr) : Addr :=
  if reverse then a - BitVec.ofNat 32 width.bytes else a + BitVec.ofNat 32 width.bytes

/-- `insb`, `insw`, `insl` and their `_rev`: `count` elements from a port to memory. -/
def ins (ports : Ports) (width : Width) (reverse : Bool) (port : BitVec 16) :
    Nat → Nat → Addr → Mem → Mem × List Io
  | 0, _, _, mem => (mem, [])
  | count + 1, k, dst, mem =>
      let v := ports port width k &&& width.mask
      let (mem, io) := ins ports width reverse port count (k + 1) (width.next reverse dst)
        (width.store mem dst v)
      (mem, .input port width v :: io)

/-- `outsb`, `outsw`, `outsl` and their `_rev`: `count` elements from memory to a port. -/
def outs (width : Width) (reverse : Bool) (port : BitVec 16) (mem : Mem) : Nat → Addr → List Io
  | 0, _ => []
  | count + 1, src =>
      .output port width (width.load mem src) ::
        outs width reverse port mem count (width.next reverse src)

namespace Machine

def inPort (vm : Machine) (ports : Ports) (width : Width) (immediate : Bool) (eip : Addr) :
    Machine :=
  let (port, isize) := vm.port eip immediate
  let v := ports port width 0 &&& width.mask
  let eax := match width with
    | .dword => v
    | .word => vm.regs.eax ||| (0xFFFF &&& v)
    | .byte => vm.regs.eax ||| (0xFF &&& v)
  { vm with regs := { vm.regs with eax }, io := vm.io ++ [Io.input port width v] }.incIp eip isize

def cx (vm : Machine) (p : Prefixes) : Nat :=
  if p.rep then (vm.regs.ecx &&& 0xFFFF).toNat else 1

def insPort (vm : Machine) (ports : Ports) (p : Prefixes) (width : Width) (eip : Addr) : Machine :=
  let (port, isize) := vm.port eip false
  let dst := if p.a32 then vm.regs.edi else realToLin32 vm.es.sel (vm.regs.edi.setWidth 16)
  let (mem, io) := ins ports width (vm.rflags &&& fDf ≠ 0) port (vm.cx p) 0 dst vm.mem
  { vm with mem, io := vm.io ++ io }.incIp eip isize

def outPort (vm : Machine) (width : Width) (immediate : Bool) (eip : Addr) : Machine :=
  let (port, isize) := vm.port eip immediate
  { vm with io := vm.io ++ [Io.output port width (vm.regs.eax &&& width.mask)] }.incIp eip isize

def outsPort (vm : Machine) (p : Prefixes) (width : Width) (eip : Addr) : Machine :=
  let (port, isize) := vm.port eip false
  let src := if p.a32 then vm.regs.esi else realToLin32 vm.ds.sel (vm.regs.esi.setWidth 16)
  let io := outs width (vm.rflags &&& fDf ≠ 0) port vm.mem (vm.cx p) src
  { vm with io := vm.io ++ io }.incIp eip isize

end Machine

def wordWidth (p : Prefixes) : Width := if p.o32 then .dword else .word

/-- `decode_modrm_32`: `reg`, `has_sib`, `rm`, the size of the displacement and its value. -/
def decodeModrm32 (mem : Mem) (eip : Addr) : BitVec 8 × Bool × BitVec 8 × Nat × BitVec 32 :=
  let modrm := mem eip
  let rm := modrm &&& 7
  let reg := (modrm >>> 3) &&& 7
  let mod := modrm >>> 6
  let hasSib : Bool := mod < 3 && rm = 4
  let at32 := load32 mem (eip + if hasSib then 2 else 1)
  let (dispSize, disp) :=
    if mod = 0 then (if rm = 5 then (4, at32) else (0, 0))
    else if mod = 1 then (1, (mem (eip + if hasSib then 2 else 1)).setWidth 32)
    else if mod = 2 then (4, at32)
    else (0, 0)
  (reg, hasSib, rm, dispSize, disp)

def GpRegisters.reg (r : GpRegisters) (n : BitVec 8) : BitVec 32 :=
  if n = 0 then r.eax else if n = 1 then r.ecx else if n = 2 then r.edx else if n = 3 then r.ebx
  else if n = 4 then r.esp else if n = 5 then r.ebp else if n = 6 then r.esi else r.edi

def GpRegisters.setReg (r : GpRegisters) (n : BitVec 8) (v : BitVec 32) : GpRegisters :=
  if n = 0 then { r with eax := v } else if n = 1 then { r with ecx := v }
  else if n = 2 then { r with edx := v } else if n = 3 then { r with ebx := v }
  else if n = 4 then { r with esp := v } else if n = 5 then { r with ebp := v }
  else if n = 6 then { r with esi := v } else { r with edi := v }

open Quest.Task (Descriptor)

def descriptorAt (mem : Mem) (a : Addr) : Descriptor where
  uLimit0 := (load16 mem a).toNat
  pBase0 := (load16 mem (a + 2)).toNat
  pBase1 := (mem (a + 4)).toNat
  uType := ((mem (a + 5)) &&& 0x1F).toNat
  uDPL := ((mem (a + 5) >>> 5) &&& 3).toNat
  fPresent := (mem (a + 5) >>> 7).toNat
  uLimit1 := (mem (a + 6) &&& 0xF).toNat
  f := ((mem (a + 6) >>> 4) &&& 1).toNat
  f0 := ((mem (a + 6) >>> 5) &&& 1).toNat
  fX := ((mem (a + 6) >>> 6) &&& 1).toNat
  fGranularity := (mem (a + 6) >>> 7).toNat
  pBase2 := (mem (a + 7)).toNat

def access (ad : Descriptor) : BitVec 32 :=
  BitVec.ofNat 32 (0x01 ||| ad.uType ||| ad.uDPL <<< 0x05 ||| ad.fPresent <<< 0x07 |||
    ad.f <<< 0x0C ||| ad.f0 <<< 0x0D ||| ad.fX <<< 0x0E ||| ad.fGranularity <<< 0x0F)

def segmentLimit (ad : Descriptor) : BitVec 32 :=
  let limit := BitVec.ofNat 32 (ad.uLimit0 ||| ad.uLimit1 <<< 16)
  if ad.fGranularity ≠ 0 then limit <<< 12 ||| 0xFFF else limit

/-- The loop of `pick_segment_regs`: the first code segment and the first data segment of the
kernel, behind entry 0. -/
def pickLoop (mem : Mem) (adLim : Addr) : Nat → Nat → Addr → Nat → Nat → Except Fault (Nat × Nat)
  | 0, _, _, _, _ => .error .diverges
  | fuel + 1, i, ad, csI, dsI =>
      if ad < adLim then
        let d := descriptorAt mem ad
        let csI := if csI = 0 ∧ d.uDPL = 0 ∧ d.uType &&& 0x8 ≠ 0 then i else csI
        let dsI := if dsI = 0 ∧ d.uDPL = 0 ∧ d.uType &&& 0x8 = 0 then i else dsI
        pickLoop mem adLim fuel (i + 1) (ad + 8) csI dsI
      else .ok (csI, dsI)

def loadSegment (mem : Mem) (adBas : Addr) (i : Nat) : Segment :=
  let ad := descriptorAt mem (adBas + BitVec.ofNat 32 (8 * i))
  ⟨BitVec.ofNat 16 (i <<< 3), BitVec.ofNat 32 ad.base, segmentLimit ad, access ad⟩

namespace Machine

def pickSegmentRegs (vm : Machine) : Except Fault (Int × Machine) := do
  let adBas := vm.gdtrBase
  let adLim := adBas + vm.gdtrLimit + 1
  let (csI, dsI) ← pickLoop vm.mem adLim (2 ^ 32) 0 adBas 0 0
  if csI ≠ 0 ∧ dsI ≠ 0 then
    let cs := loadSegment vm.mem adBas csI
    let ds := loadSegment vm.mem adBas dsI
    .ok (0, { vm with cs, ss := ds, ds, es := ds, fs := ds, gs := ds })
  else .ok (-1, vm)

def farJump (vm : Machine) (eip : Addr) : Machine :=
  let offs := load32 vm.mem (eip + 2)
  let segm := load16 vm.mem (eip + 6)
  let ad := descriptorAt vm.mem (vm.gdtrBase + BitVec.ofNat 32 (8 * (segm >>> 3).toNat))
  let csBase := ad.pBase0 ||| ad.pBase1 <<< 8 ||| ad.pBase2 <<< 16
  { vm with rip := offs, cs := ⟨segm, BitVec.ofNat 32 csBase, segmentLimit ad, access ad⟩ }

def cr0Mask : BitVec 32 := ~~~0x80000001#32

def lgdt (vm : Machine) (p : Prefixes) (eip : Addr) : Int × Machine :=
  let eip := eip + 1
  let (reg, hasSib, rm, dispSize, disp) := decodeModrm32 vm.mem eip
  if reg = 2 ∧ p.a32 ∧ p.o32 then
    let limit := if rm = 5 then (load16 vm.mem disp).setWidth 32 else 0
    let base := if rm = 5 then load32 vm.mem (disp + 2) else 0
    (0, { vm with gdtrBase := base, gdtrLimit := limit }.incIp eip
      (1 + (if hasSib then 1 else 0) + dispSize))
  else (-1, vm)

def movFromCr0 (vm : Machine) (eip : Addr) : Int × Machine :=
  let eip := eip + 1
  let (_, _, rm, _, _) := decodeModrm32 vm.mem eip
  (0, { vm with regs := vm.regs.setReg rm (vm.cr0 &&& cr0Mask) }.incIp eip 1)

def movToCr0 (vm : Machine) (eip : Addr) : Except Fault (Int × Machine) :=
  let eip := eip + 1
  let (_, _, rm, _, _) := decodeModrm32 vm.mem eip
  let newCr0 := vm.regs.reg rm
  if newCr0 &&& 1 ≠ 0 then do
    let vm := { vm with realmode := false, rflags := vm.rflags &&& ~~~fVm }
    let (status, vm) ← vm.pickSegmentRegs
    let eip := eip + 1
    if status < 0 then .ok (-1, vm)
    else if vm.mem eip = 0x66 ∧ vm.mem (eip + 1) = 0xEA then
      .ok (0, { vm.farJump eip with cr0 := newCr0 ||| ~~~cr0Mask })
    else .ok (-1, vm)
  else .ok (0, { vm.incIp eip 1 with cr0 := newCr0 ||| ~~~cr0Mask })

def execute (vm : Machine) (ivt : BitVec 8 → Farptr) (ports : Ports) (p : Prefixes)
    (eip stk : Addr) : Except Fault (Int × Machine) :=
  let op := vm.mem eip
  if op = 0xCD then .ok (0, vm.int ivt eip stk)
  else if op = 0x9C then .ok (0, vm.pushf p eip stk)
  else if op = 0x9D then .ok (0, vm.popf p eip stk)
  else if op = 0xCF then .ok (0, vm.iret stk)
  else if op = 0xFA then .ok (0, vm.cli eip)
  else if op = 0xFB then .ok (0, vm.sti eip)
  else if op = 0xE4 then .ok (0, vm.inPort ports .byte true eip)
  else if op = 0xE5 then .ok (0, vm.inPort ports (wordWidth p) true eip)
  else if op = 0xEC then .ok (0, vm.inPort ports .byte false eip)
  else if op = 0xED then .ok (0, vm.inPort ports (wordWidth p) false eip)
  else if op = 0x6C then .ok (0, vm.insPort ports p .byte eip)
  else if op = 0x6D then .ok (0, vm.insPort ports p (wordWidth p) eip)
  else if op = 0xE6 then .ok (0, vm.outPort .byte true eip)
  else if op = 0xE7 then .ok (0, vm.outPort (wordWidth p) true eip)
  else if op = 0xEE then .ok (0, vm.outPort .byte false eip)
  else if op = 0xEF then .ok (0, vm.outPort (wordWidth p) false eip)
  else if op = 0x6E then .ok (0, vm.outsPort p .byte eip)
  else if op = 0x6F then .ok (0, vm.outsPort p (wordWidth p) eip)
  else if op = 0x0F then
    let eip := eip + 1
    if vm.mem eip = 0x01 then .ok (vm.lgdt p eip)
    else if vm.mem eip = 0x20 then .ok (vm.movFromCr0 eip)
    else if vm.mem eip = 0x22 then vm.movToCr0 eip
    else .ok (-1, vm)
  else .ok (-1, vm)

def codeAddr (vm : Machine) : Addr := realToLin32 vm.cs.sel (vm.rip.setWidth 16)

def stackAddr (vm : Machine) : Addr := realToLin32 vm.ss.sel (vm.rsp.setWidth 16)

def handleGPF (vm : Machine) (ivt : BitVec 8 → Farptr) (ports : Ports) :
    Except Fault (Int × Machine) := do
  let (eip, p) ← parse vm.mem (2 ^ 32) vm.codeAddr ⟨false, false, false, false⟩
  vm.execute ivt ports p eip vm.stackAddr

end Machine

def accepted : List (BitVec 8) := [0x66, 0x67, 0xF2, 0xF3]

/-- The prefixes `pre` and the opcode `op` stand at CS:IP. -/
structure Fetched (vm : Machine) (pre : List (BitVec 8)) (op : BitVec 8) : Prop where
  accepted : ∀ b ∈ pre, b ∈ accepted
  bytes : ∀ i (h : i < pre.length), vm.mem (vm.codeAddr + BitVec.ofNat 32 i) = pre[i]
  opcode : vm.mem (vm.codeAddr + BitVec.ofNat 32 pre.length) = op

namespace Prefixes

def none : Prefixes := ⟨false, false, false, false⟩

def after (p : Prefixes) (pre : List (BitVec 8)) : Prefixes where
  a32 := p.a32 || decide (0x67 ∈ pre)
  o32 := p.o32 || decide (0x66 ∈ pre)
  rep := p.rep || decide (0xF3 ∈ pre)
  repnz := p.repnz || decide (0xF2 ∈ pre)

theorem after_nil (p : Prefixes) : p.after [] = p := by simp [after]

theorem after_cons (p : Prefixes) (b : BitVec 8) (pre : List (BitVec 8)) :
    p.after (b :: pre) = (p.after [b]).after pre := by
  simp [after, Bool.or_assoc]

end Prefixes

theorem parse_step {mem : Mem} {eip : Addr} (hb : mem eip ∈ accepted) (fuel : Nat) (p : Prefixes) :
    parse mem (fuel + 1) eip p = parse mem fuel (eip + 1) (p.after [mem eip]) := by
  rw [parse]
  simp only [accepted, List.mem_cons, List.not_mem_nil, or_false] at hb
  obtain hb | hb | hb | hb := hb <;> simp [hb, Prefixes.after]

theorem parse_stop {mem : Mem} {eip : Addr} (hb : mem eip ∉ accepted) (fuel : Nat) (p : Prefixes) :
    parse mem (fuel + 1) eip p = .ok (eip, p) := by
  rw [parse]
  simp only [accepted, List.mem_cons, List.not_mem_nil, or_false, not_or] at hb
  rw [if_neg hb.1, if_neg hb.2.1, if_neg hb.2.2.1, if_neg hb.2.2.2]

theorem parse_eq {mem : Mem} {op : BitVec 8} (hop : op ∉ accepted) :
    ∀ (pre : List (BitVec 8)) (fuel : Nat) (eip : Addr) (p : Prefixes), pre.length < fuel →
      (∀ b ∈ pre, b ∈ accepted) →
      (∀ i (h : i < pre.length), mem (eip + BitVec.ofNat 32 i) = pre[i]) →
      mem (eip + BitVec.ofNat 32 pre.length) = op →
      parse mem fuel eip p = .ok (eip + BitVec.ofNat 32 pre.length, p.after pre)
  | [], fuel + 1, eip, p, _, _, _, ho => by
      simp only [List.length_nil, BitVec.add_zero] at ho ⊢
      rw [parse_stop (ho ▸ hop), Prefixes.after_nil]
  | b :: pre, fuel + 1, eip, p, hf, ha, hb, ho => by
      have hnext (i : Nat) : eip + 1 + BitVec.ofNat 32 i = eip + BitVec.ofNat 32 (i + 1) := by
        rw [show (1 : Addr) = BitVec.ofNat 32 1 from rfl, BitVec.add_assoc, ← BitVec.ofNat_add,
          add_comm 1]
      have hhere : mem eip = b := by
        have h0 := hb 0 (Nat.zero_lt_succ _)
        rwa [BitVec.add_zero] at h0
      rw [parse_step (hhere ▸ ha b (by simp)), hhere,
        parse_eq hop pre fuel (eip + 1) _ (by simpa using hf)
          (fun c hc => ha c (List.mem_cons_of_mem b hc))
          (fun i hi => by rw [hnext]; exact hb (i + 1) (by simpa using hi))
          (by rw [hnext]; exact ho),
        hnext, ← Prefixes.after_cons]
      rfl

namespace Fetched

variable {vm : Machine} {pre : List (BitVec 8)} {op : BitVec 8}

theorem nil (h : vm.mem vm.codeAddr = op) : Fetched vm [] op where
  accepted := nofun
  bytes := nofun
  opcode := by rwa [List.length_nil, BitVec.add_zero]

theorem length_lt (h : Fetched vm pre op) (hop : op ∉ Vm.accepted) : pre.length < 2 ^ 32 := by
  by_contra hlen
  have hi : pre.length - 2 ^ 32 < pre.length := by omega
  have heq : BitVec.ofNat 32 pre.length = BitVec.ofNat 32 (pre.length - 2 ^ 32) := by
    apply BitVec.eq_of_toNat_eq
    simp only [BitVec.toNat_ofNat]
    omega
  apply hop
  rw [← h.opcode, heq, h.bytes _ hi]
  exact h.accepted _ (List.getElem_mem hi)

theorem handleGPF_eq (h : Fetched vm pre op) (hop : op ∉ Vm.accepted) (ivt : BitVec 8 → Farptr)
    (ports : Ports) :
    vm.handleGPF ivt ports = vm.execute ivt ports (Prefixes.none.after pre)
      (vm.codeAddr + BitVec.ofNat 32 pre.length) vm.stackAddr := by
  have hparse := parse_eq hop pre (2 ^ 32) vm.codeAddr Prefixes.none (h.length_lt hop)
    h.accepted h.bytes h.opcode
  rw [Machine.handleGPF]
  change parse vm.mem (2 ^ 32) vm.codeAddr Prefixes.none >>= _ = _
  rw [hparse]
  rfl

end Fetched

/-- The emulated instructions of real mode, apart from those that lead to protected mode. -/
inductive Insn where
  | int
  | pushf
  | popf
  | iret
  | cli
  | sti
  | input (wide immediate : Bool)
  | output (wide immediate : Bool)
  | ins (wide : Bool)
  | outs (wide : Bool)
  deriving DecidableEq

namespace Insn

def opcode : Insn → BitVec 8
  | int => 0xCD
  | pushf => 0x9C
  | popf => 0x9D
  | iret => 0xCF
  | cli => 0xFA
  | sti => 0xFB
  | input wide immediate =>
      if immediate then (if wide then 0xE5 else 0xE4) else (if wide then 0xED else 0xEC)
  | output wide immediate =>
      if immediate then (if wide then 0xE7 else 0xE6) else (if wide then 0xEF else 0xEE)
  | ins wide => if wide then 0x6D else 0x6C
  | outs wide => if wide then 0x6F else 0x6E

def width (p : Prefixes) (wide : Bool) : Width := if wide then wordWidth p else .byte

def emulate (vm : Machine) (ivt : BitVec 8 → Farptr) (ports : Ports) (p : Prefixes)
    (eip stk : Addr) : Insn → Machine
  | int => vm.int ivt eip stk
  | pushf => vm.pushf p eip stk
  | popf => vm.popf p eip stk
  | iret => vm.iret stk
  | cli => vm.cli eip
  | sti => vm.sti eip
  | input wide immediate => vm.inPort ports (width p wide) immediate eip
  | output wide immediate => vm.outPort (width p wide) immediate eip
  | ins wide => vm.insPort ports p (width p wide) eip
  | outs wide => vm.outsPort p (width p wide) eip

theorem opcode_notMem_accepted (insn : Insn) : insn.opcode ∉ accepted := by
  cases insn with
  | int | pushf | popf | iret | cli | sti => decide
  | input wide immediate | output wide immediate => revert wide immediate; decide
  | ins wide | outs wide => revert wide; decide

theorem execute_opcode (insn : Insn) {vm : Machine} {eip : Addr} (h : vm.mem eip = insn.opcode)
    (ivt : BitVec 8 → Farptr) (ports : Ports) (p : Prefixes) (stk : Addr) :
    vm.execute ivt ports p eip stk = .ok (0, insn.emulate vm ivt ports p eip stk) := by
  cases insn with
  | int | pushf | popf | iret | cli | sti => simp [Machine.execute, h, opcode, emulate]
  | input wide immediate | output wide immediate =>
      cases wide <;> cases immediate <;> simp [Machine.execute, h, opcode, emulate, width]
  | ins wide | outs wide => cases wide <;> simp [Machine.execute, h, opcode, emulate, width]

/-- The state behind an instruction that stands at CS:IP behind the prefixes `pre`. -/
def next (insn : Insn) (vm : Machine) (ivt : BitVec 8 → Farptr) (ports : Ports)
    (pre : List (BitVec 8)) : Machine :=
  insn.emulate vm ivt ports (Prefixes.none.after pre)
    (vm.codeAddr + BitVec.ofNat 32 pre.length) vm.stackAddr

theorem handleGPF_next (insn : Insn) {vm : Machine} {pre : List (BitVec 8)}
    (h : Fetched vm pre insn.opcode) (ivt : BitVec 8 → Farptr) (ports : Ports) :
    vm.handleGPF ivt ports = .ok (0, insn.next vm ivt ports pre) := by
  rw [h.handleGPF_eq insn.opcode_notMem_accepted, insn.execute_opcode h.opcode, next]

theorem exists_handleGPF_iff (insn : Insn) {vm : Machine} {pre : List (BitVec 8)}
    (h : Fetched vm pre insn.opcode) (ivt : BitVec 8 → Farptr) (ports : Ports)
    (P : Machine → Prop) :
    (∃ vm', vm.handleGPF ivt ports = .ok (0, vm') ∧ P vm') ↔ P (insn.next vm ivt ports pre) := by
  rw [insn.handleGPF_next h]
  constructor
  · rintro ⟨vm', hvm, hP⟩
    cases hvm
    exact hP
  · intro hP
    exact ⟨_, rfl, hP⟩

end Insn

end Quest.Vm
