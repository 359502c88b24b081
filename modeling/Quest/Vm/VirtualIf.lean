import Quest.Vm.Segments

/-! The virtual interrupt flag: the flags that the guest pushes show VIF in the place of IF, and
those that it pops set VIF. -/
namespace Quest.Vm

open BitVec

theorem and_twoPow_ne_zero (x : BitVec 32) {k : Nat} (hk : k < 32) :
    x &&& BitVec.twoPow 32 k ≠ 0 ↔ x.getLsbD k = true := by
  have hne : BitVec.twoPow 32 k ≠ 0 := by
    intro h
    have := congrArg (getLsbD · k) h
    simp [hk] at this
  rw [and_twoPow]
  cases x.getLsbD k
  · simp
  · simpa using hne

theorem and_fVif_ne_zero (x : BitVec 32) : x &&& fVif ≠ 0 ↔ x.getLsbD 19 = true :=
  and_twoPow_ne_zero x (k := 19) (by decide)

theorem and_fIf_ne_zero (x : BitVec 32) : x &&& fIf ≠ 0 ↔ x.getLsbD 9 = true :=
  and_twoPow_ne_zero x (k := 9) (by decide)

theorem getLsbD_fIf (i : Nat) : fIf.getLsbD i = decide (i = 9) := by
  simp [show fIf = BitVec.twoPow 32 9 from rfl, getLsbD_twoPow, eq_comm]

theorem getLsbD_fVif (i : Nat) : fVif.getLsbD i = decide (i = 19) := by
  simp [show fVif = BitVec.twoPow 32 19 from rfl, getLsbD_twoPow, eq_comm]

theorem getLsbD_guestFlags {i : Nat} (h : guestFlags.getLsbD i = true) : i < 12 ∧ i ≠ 9 := by
  have hall : ∀ i < 32, guestFlags.getLsbD i = true → i < 12 ∧ i ≠ 9 := by decide
  exact hall i (lt_of_getLsbD h) h

theorem getLsbD_and_not (x y : BitVec 32) (i : Nat) :
    (x &&& ~~~y).getLsbD i = (x.getLsbD i && !y.getLsbD i) := by
  rw [getLsbD_and, getLsbD_not]
  by_cases hi : i < 32
  · rw [decide_eq_true hi, Bool.true_and]
  · rw [getLsbD_of_ge x i (Nat.le_of_not_lt hi), Bool.false_and, Bool.false_and]

theorem getLsbD_showVif (eflags word : BitVec 32) (i : Nat) :
    (showVif eflags word).getLsbD i = if i = 9 then eflags.getLsbD 19 else word.getLsbD i := by
  rw [showVif]
  cases hvif : eflags.getLsbD 19
  · rw [if_neg (by rw [and_fVif_ne_zero, hvif]; decide), getLsbD_and_not, getLsbD_fIf]
    by_cases hi : i = 9 <;> simp [hi]
  · rw [if_pos ((and_fVif_ne_zero _).mpr hvif), getLsbD_or, getLsbD_fIf]
    by_cases hi : i = 9 <;> simp [hi]

theorem getLsbD_popFlags (eflags word : BitVec 32) (i : Nat) :
    (popFlags eflags word).getLsbD i =
      if i = 19 then word.getLsbD 9
      else if guestFlags.getLsbD i = true then word.getLsbD i else eflags.getLsbD i := by
  have hnew : ((word &&& guestFlags) ||| (eflags &&& ~~~guestFlags)).getLsbD i =
      if guestFlags.getLsbD i = true then word.getLsbD i else eflags.getLsbD i := by
    rw [getLsbD_or, getLsbD_and, getLsbD_and_not]
    cases guestFlags.getLsbD i <;> simp
  rw [popFlags]
  cases hif : word.getLsbD 9
  · rw [if_neg (by rw [and_fIf_ne_zero, hif]; decide), getLsbD_and_not, hnew, getLsbD_fVif]
    by_cases hi : i = 19 <;> simp [hi]
  · rw [if_pos ((and_fIf_ne_zero _).mpr hif), getLsbD_or, hnew, getLsbD_fVif]
    by_cases hi : i = 19 <;> simp [hi]

def SameIf (vm vm' : Machine) : Prop := vm'.rflags.getLsbD 9 = vm.rflags.getLsbD 9

theorem Insn.sameIf_emulate (insn : Insn) (vm : Machine) (ivt : BitVec 8 → Farptr) (ports : Ports)
    (p : Prefixes) (eip stk : Addr) : SameIf vm (insn.emulate vm ivt ports p eip stk) := by
  have hpop (word : BitVec 32) : (popFlags vm.rflags word).getLsbD 9 = vm.rflags.getLsbD 9 := by
    rw [getLsbD_popFlags]
    rfl
  have hclear : (vm.rflags &&& ~~~fVif).getLsbD 9 = vm.rflags.getLsbD 9 := by
    rw [getLsbD_and_not, getLsbD_fVif]
    exact Bool.and_true _
  have hset : (vm.rflags ||| fVif).getLsbD 9 = vm.rflags.getLsbD 9 := by
    rw [getLsbD_or, getLsbD_fVif]
    exact Bool.or_false _
  cases insn with
  | int | cli => exact hclear
  | popf | iret => exact hpop _
  | sti => exact hset
  | pushf =>
      rw [emulate, Machine.pushf]
      split <;> rfl
  | input wide immediate | output wide immediate | ins wide | outs wide => rfl

/-! What is pushed and what is there when it is popped. -/

structure Intact (vm later : Machine) (a : Addr) (n : Nat) : Prop where
  ss : later.ss.sel = vm.ss.sel
  sp : later.sp = vm.sp
  bytes : ∀ i < n, later.mem (a + BitVec.ofNat 32 i) = vm.mem (a + BitVec.ofNat 32 i)

namespace Intact

variable {vm later : Machine} {a : Addr} {n : Nat}

theorem stackAddr_eq (h : Intact vm later a n) : later.stackAddr = vm.stackAddr := by
  have hsp := h.sp
  rw [Machine.sp, Machine.sp] at hsp
  rw [Machine.stackAddr, Machine.stackAddr, h.ss, hsp]

theorem stackAddr_of_room (h : Intact vm later a n) {stk : Addr} (hroom : n ≤ stk.toNat)
    (hstack : stk.toNat < 2 ^ 20)
    (hsp : vm.stackAddr.toNat = (stk - BitVec.ofNat 32 n).toNat % 2 ^ 20) :
    later.stackAddr = stk - BitVec.ofNat 32 n := by
  have hsub : (stk - BitVec.ofNat 32 n).toNat = stk.toNat - n := by
    rw [toNat_sub, toNat_ofNat]
    omega
  apply eq_of_toNat_eq
  rw [h.stackAddr_eq, hsp]
  omega

theorem load16_eq (h : Intact vm later a n) {i : Nat} (hi : i + 1 < n) :
    load16 later.mem (a + BitVec.ofNat 32 i) = load16 vm.mem (a + BitVec.ofNat 32 i) := by
  have hnext : a + BitVec.ofNat 32 i + 1 = a + BitVec.ofNat 32 (i + 1) := by
    rw [ofNat_add, BitVec.add_assoc]
    rfl
  rw [load16, load16, hnext, h.bytes i (by omega), h.bytes (i + 1) hi]

end Intact

structure Resumed (vm vm' : Machine) (next : Addr) : Prop where
  code : vm'.codeAddr = next
  stack : vm'.stackAddr = vm.stackAddr
  vif : vm'.rflags &&& fVif = vm.rflags &&& fVif
  flags : vm'.rflags &&& guestFlags = vm.rflags &&& guestFlags

/-- After INT led to `vm'`, the 16-bit IRET of any handler comes back. -/
def Resumes (vm vm' : Machine) (ivt : BitVec 8 → Farptr) (pre : List (BitVec 8)) : Prop :=
  ∀ later ports pre', Intact vm' later (vm.stackAddr - 6) 6 →
    Fetched later pre' Insn.iret.opcode → 0x66 ∉ pre' →
    ∃ vm'', later.handleGPF ivt ports = .ok (0, vm'') ∧
      Resumed vm vm'' (vm.codeAddr + BitVec.ofNat 32 (pre.length + Insn.int.length))

/-- After PUSHF led to `vm'`, a POPF of the same size restores the flags of the guest. -/
def Restores (vm vm' : Machine) (ivt : BitVec 8 → Farptr) (pre : List (BitVec 8)) : Prop :=
  let size := Insn.operandSize (Prefixes.none.after pre)
  ∀ later ports pre', Intact vm' later (vm.stackAddr - BitVec.ofNat 32 size) size →
    Fetched later pre' Insn.popf.opcode → (0x66 ∈ pre' ↔ 0x66 ∈ pre) →
    later.rflags &&& ~~~(guestFlags ||| fVif) = vm.rflags &&& ~~~(guestFlags ||| fVif) →
    ∃ vm'', later.handleGPF ivt ports = .ok (0, vm'') ∧ vm''.rflags = vm.rflags

def ShowsVif (vm vm' : Machine) (a : Addr) : Prop :=
  (load16 vm'.mem a).getLsbD 9 = vm.rflags.getLsbD 19

/-- What is asked of the interrupt flag between `vm` and `vm'`. -/
def FlagsKept (vm vm' : Machine) (ivt : BitVec 8 → Farptr) (pre : List (BitVec 8)) : Insn → Prop
  | .int => SameIf vm vm' ∧ ShowsVif vm vm' (vm.stackAddr - 2) ∧ Resumes vm vm' ivt pre
  | .pushf =>
      SameIf vm vm' ∧
        ShowsVif vm vm'
          (vm.stackAddr - BitVec.ofNat 32 (Insn.operandSize (Prefixes.none.after pre))) ∧
        Restores vm vm' ivt pre
  | _ => SameIf vm vm'

/-- The stack has room above address 0, and the instruction behind INT is below 1 MiB. -/
def Room (vm : Machine) (pre : List (BitVec 8)) : Insn → Prop
  | .int =>
      6 ≤ vm.stackAddr.toNat ∧
        (vm.codeAddr + BitVec.ofNat 32 (pre.length + Insn.int.length)).toNat < 2 ^ 20
  | .pushf => Insn.operandSize (Prefixes.none.after pre) ≤ vm.stackAddr.toNat
  | _ => True

theorem stackAddr_setSp (vm : Machine) (p : Addr) :
    (vm.setSp (lin32ToFp p)).stackAddr.toNat = p.toNat % 2 ^ 20 := by
  rw [← toNat_realToLin32_lin32ToFp, Machine.stackAddr, Machine.setSp]
  simp only [setWidth_setWidth_of_le, Nat.reduceLeDiff, setWidth_eq]

theorem codeAddr_setIp (vm : Machine) (fp : Farptr) :
    (vm.setIp fp).codeAddr = realToLin32 fp.segm fp.offs := by
  rw [Machine.codeAddr, Machine.setIp]
  simp only [setWidth_setWidth_of_le, Nat.reduceLeDiff, setWidth_eq]

theorem int_saved (vm : Machine) (ivt : BitVec 8 → Farptr) (eip : Addr) :
    load16 (vm.int ivt eip vm.stackAddr).mem (vm.stackAddr - 6) = (lin32ToFp (eip + 2)).offs ∧
      load16 (vm.int ivt eip vm.stackAddr).mem (vm.stackAddr - 6 + 2) =
        (lin32ToFp (eip + 2)).segm ∧
      load16 (vm.int ivt eip vm.stackAddr).mem (vm.stackAddr - 6 + 4) =
        (showVif vm.rflags (vm.rflags &&& 0xFFFF)).setWidth 16 := by
  simp only [Machine.int, Machine.setIp, Machine.setSp]
  refine ⟨?_, ?_, load16_store16 _ _ _⟩
  · rw [load16_store16_of_ne _ (by bv_omega) (by bv_omega) (by bv_omega),
      load16_store16_of_ne _ (by bv_omega) (by bv_omega) (by bv_omega), load16_store16]
  · rw [load16_store16_of_ne _ (by bv_omega) (by bv_omega) (by bv_omega), load16_store16]

def popWord (p : Prefixes) (mem : Mem) (stk : Addr) : BitVec 32 :=
  if p.o32 then load32 mem stk else (load16 mem stk).setWidth 32

theorem getLsbD_popWord (p : Prefixes) (mem : Mem) (stk : Addr) {i : Nat} (hi : i < 16) :
    (popWord p mem stk).getLsbD i = (load16 mem stk).getLsbD i := by
  rw [popWord]
  split
  · rw [load32, getLsbD_append, if_pos hi]
  · rw [getLsbD_setWidth, decide_eq_true (hi.trans (by decide)), Bool.true_and]

theorem pushf_saved (vm : Machine) (p : Prefixes) (eip : Addr) {i : Nat} (hi : i < 16) :
    (load16 (vm.pushf p eip vm.stackAddr).mem
        (vm.stackAddr - BitVec.ofNat 32 (Insn.operandSize p))).getLsbD i =
      (showVif vm.rflags (vm.rflags &&& guestFlags)).getLsbD i := by
  rw [← getLsbD_popWord p _ _ hi, Machine.pushf, Insn.operandSize, popWord]
  split
  · exact congrArg (getLsbD · i) (load32_store32 _ _ _)
  · refine (congrArg (fun w => (setWidth 32 w).getLsbD i) (load16_store16 _ _ _)).trans ?_
    rw [getLsbD_setWidth, getLsbD_setWidth, decide_eq_true hi,
      decide_eq_true (hi.trans (by decide)), Bool.true_and, Bool.true_and]

theorem popFlags_restores (e' : BitVec 32) {e word : BitVec 32} (hif : word.getLsbD 9 = e.getLsbD 19)
    (hword : ∀ i, guestFlags.getLsbD i = true → word.getLsbD i = e.getLsbD i) :
    popFlags e' word &&& fVif = e &&& fVif ∧ popFlags e' word &&& guestFlags = e &&& guestFlags ∧
      (e' &&& ~~~(guestFlags ||| fVif) = e &&& ~~~(guestFlags ||| fVif) →
        popFlags e' word = e) := by
  have hvif : (popFlags e' word).getLsbD 19 = e.getLsbD 19 := by
    rw [getLsbD_popFlags, if_pos rfl, hif]
  have hguest (i : Nat) (hi : guestFlags.getLsbD i = true) :
      (popFlags e' word).getLsbD i = e.getLsbD i := by
    have hne : i ≠ 19 := by have := getLsbD_guestFlags hi; omega
    rw [getLsbD_popFlags, if_neg hne, if_pos hi, hword i hi]
  refine ⟨?_, ?_, fun hrest => ?_⟩ <;> refine eq_of_getLsbD_eq fun i _ => ?_
  · rw [getLsbD_and, getLsbD_and, getLsbD_fVif]
    by_cases hi : i = 19
    · rw [hi, hvif]
    · simp [hi]
  · rw [getLsbD_and, getLsbD_and]
    cases hi : guestFlags.getLsbD i <;> simp [hguest, hi]
  · by_cases hi : i = 19
    · rw [hi, hvif]
    cases hg : guestFlags.getLsbD i
    · have hbit := congrArg (getLsbD · i) hrest
      simp only [getLsbD_and_not, getLsbD_or, hg, getLsbD_fVif, decide_eq_false hi,
        Bool.or_false, Bool.not_false, Bool.and_true] at hbit
      rw [getLsbD_popFlags, if_neg hi, hg, if_neg Bool.false_ne_true, hbit]
    · exact hguest i hg

/-- Any instruction can come next, with any byte in the memory above the first 64 KiB but for the
`n` that are intact. -/
theorem exists_later (vm : Machine) (a : Addr) {n : Nat} (hn : n ≤ 6) (fill op : BitVec 8)
    (pre : List (BitVec 8)) (hlen : pre.length ≤ 1) (hpre : ∀ b ∈ pre, b ∈ accepted) :
    ∃ later, Intact vm later a n ∧ Fetched later pre op ∧ later.rflags = vm.rflags ∧
      ∀ x, n ≤ (x - a).toNat → 2 ^ 16 ≤ x.toNat → later.mem x = fill := by
  -- Two places for the instruction, of which the `n` bytes meet one at most.
  obtain ⟨c, hc, hc0, hc1⟩ : ∃ c : BitVec 16, c.toNat ≤ 0x200 ∧
      n ≤ (realToLin32 0 c - a).toNat ∧ n ≤ (realToLin32 0 c + 1 - a).toNat := by
    by_cases h : n ≤ (0x100 - a).toNat ∧ n ≤ (0x101 - a).toNat
    · exact ⟨0x100, by decide, h⟩
    · refine ⟨0x200, by decide, ?_⟩
      change n ≤ (0x200 - a).toNat ∧ n ≤ (0x201 - a).toNat
      bv_omega
  let later : Machine :=
    { vm with
      rip := c.setWidth 32
      cs := { vm.cs with sel := 0 }
      mem := fun x => if (x - a).toNat < n then vm.mem x
        else ((pre ++ [op])[(x - realToLin32 0 c).toNat]?).getD fill }
  have hcode : later.codeAddr = realToLin32 0 c := by
    simp only [later, Machine.codeAddr, setWidth_setWidth_of_le, Nat.reduceLeDiff,
      setWidth_eq]
  have hmem (i : Nat) (hi : i ≤ 1) :
      later.mem (later.codeAddr + BitVec.ofNat 32 i) = ((pre ++ [op])[i]?).getD fill := by
    have hout : ¬(realToLin32 0 c + BitVec.ofNat 32 i - a).toNat < n := by
      obtain rfl | rfl : i = 0 ∨ i = 1 := by omega
      · simpa using hc0
      · simpa using hc1
    have hback : (realToLin32 0 c + BitVec.ofNat 32 i - realToLin32 0 c).toNat = i := by
      rw [BitVec.add_comm, BitVec.add_sub_cancel, toNat_ofNat]
      omega
    rw [hcode]
    simp only [later]
    rw [if_neg hout, hback]
  refine ⟨later, ⟨rfl, rfl, fun i hi => ?_⟩, ⟨hpre, fun i hi => ?_, ?_⟩, rfl, fun x hx hhigh => ?_⟩
  · refine if_pos ?_
    rw [BitVec.add_comm, BitVec.add_sub_cancel, toNat_ofNat]
    omega
  · rw [hmem i (by omega), List.getElem?_append_left hi, List.getElem?_eq_getElem hi,
      Option.getD_some]
  · rw [hmem _ hlen, List.getElem?_concat_length, Option.getD_some]
  · have hfar : (pre ++ [op]).length ≤ (x - realToLin32 0 c).toNat := by
      have h0 : (realToLin32 0 c).toNat = c.toNat := by rw [toNat_realToLin32]; simp
      rw [List.length_append, List.length_singleton, toNat_sub, h0]
      omega
    simp only [later]
    rw [if_neg (not_lt.mpr hx), List.getElem?_eq_none hfar, Option.getD_none]

theorem exists_misread {vm : Machine} (stk : Addr) {n : Nat} (hn : n ≤ 6)
    (hsp : vm.stackAddr.toNat = (stk - BitVec.ofNat 32 n).toNat % 2 ^ 20) (hlt : stk.toNat < n)
    (b : Bool) (op : BitVec 8) (pre : List (BitVec 8)) (hlen : pre.length ≤ 1)
    (hpre : ∀ b ∈ pre, b ∈ accepted) :
    ∃ later, Intact vm later (stk - BitVec.ofNat 32 n) n ∧ Fetched later pre op ∧
      later.rflags = vm.rflags ∧
      ∀ i, i + 1 < n → (load16 later.mem (later.stackAddr + BitVec.ofNat 32 i)).getLsbD 9 = b := by
  obtain ⟨later, hintact, hfetch, hflags, hfill⟩ := exists_later vm (stk - BitVec.ofNat 32 n) hn
    (if b then 0xFF else 0) op pre hlen hpre
  refine ⟨later, hintact, hfetch, hflags, fun i hi => ?_⟩
  have hbyte : later.mem (later.stackAddr + BitVec.ofNat 32 i + 1) = if b then 0xFF else 0 := by
    rw [hintact.stackAddr_eq]
    have hpushed : (stk - BitVec.ofNat 32 n).toNat = 2 ^ 32 - n + stk.toNat := by
      rw [toNat_sub, toNat_ofNat]
      omega
    have hpop : (vm.stackAddr + BitVec.ofNat 32 i + 1).toNat = 2 ^ 20 - n + stk.toNat + i + 1 := by
      rw [toNat_add, toNat_add, toNat_ofNat, hsp, hpushed,
        show (1 : Addr).toNat = 1 from rfl]
      omega
    apply hfill
    · rw [toNat_sub, hpop, hpushed]
      omega
    · omega
  rw [load16, getLsbD_append, if_neg (by decide), hbyte]
  cases b <;> rfl

section

variable {vm later : Machine} {ivt : BitVec 8 → Farptr} {ports : Ports} {pre : List (BitVec 8)}

theorem int_return (vm : Machine) (pre : List (BitVec 8)) :
    vm.codeAddr + BitVec.ofNat 32 pre.length + 2 =
      vm.codeAddr + BitVec.ofNat 32 (pre.length + Insn.int.length) := by
  rw [ofNat_add, ← BitVec.add_assoc]
  rfl

theorem int_stackAddr :
    (Insn.int.next vm ivt ports pre).stackAddr.toNat = (vm.stackAddr - 6).toNat % 2 ^ 20 :=
  stackAddr_setSp vm _

theorem iret_finds (hroom : 6 ≤ vm.stackAddr.toNat) (hstack : vm.stackAddr.toNat < 2 ^ 20)
    (h : Intact (Insn.int.next vm ivt ports pre) later (vm.stackAddr - 6) 6) :
    later.stackAddr = vm.stackAddr - 6 ∧
      (later.iret later.stackAddr).codeAddr.toNat =
        (vm.codeAddr + BitVec.ofNat 32 (pre.length + Insn.int.length)).toNat % 2 ^ 20 ∧
      (load16 later.mem (later.stackAddr + 4)).setWidth 32 =
        ((showVif vm.rflags (vm.rflags &&& 0xFFFF)).setWidth 16).setWidth 32 := by
  obtain ⟨hoffs, hsegm, hflags⟩ :=
    int_saved vm ivt (vm.codeAddr + BitVec.ofNat 32 pre.length)
  have hsp : later.stackAddr = vm.stackAddr - 6 :=
    h.stackAddr_of_room hroom hstack int_stackAddr
  have hword0 := h.load16_eq (i := 0) (by decide)
  rw [BitVec.add_zero] at hword0
  have hword2 := h.load16_eq (i := 2) (by decide)
  have hword4 := h.load16_eq (i := 4) (by decide)
  refine ⟨hsp, ?_, ?_⟩
  · rw [← int_return, ← toNat_realToLin32_lin32ToFp, ← hoffs, ← hsegm]
    refine congrArg BitVec.toNat ((codeAddr_setIp later _).trans ?_)
    rw [hsp]
    exact congrArg₂ realToLin32 hword2 hword0
  · rw [hsp]
    exact congrArg (setWidth 32) (hword4.trans hflags)

theorem resumes_iff (hstack : vm.stackAddr.toNat < 2 ^ 20) :
    Resumes vm (Insn.int.next vm ivt ports pre) ivt pre ↔ Room vm pre .int := by
  constructor
  · intro h
    have hroom : 6 ≤ vm.stackAddr.toNat := by
      by_contra hlt
      obtain ⟨later, hintact, hfetch, -, hwrong⟩ := exists_misread vm.stackAddr (n := 6)
        le_rfl int_stackAddr (Nat.lt_of_not_le hlt) (!vm.rflags.getLsbD 19) Insn.iret.opcode
        [] (by decide) (by decide)
      obtain ⟨vm'', hret, hresumed⟩ := h later ports [] hintact hfetch (by decide)
      rw [Insn.iret.handleGPF_next hfetch] at hret
      cases hret
      have hvif := congrArg (getLsbD · 19) hresumed.vif
      have hpop : (popFlags later.rflags
          ((load16 later.mem (later.stackAddr + 4)).setWidth 32)).getLsbD 19 =
            !vm.rflags.getLsbD 19 := by
        rw [getLsbD_popFlags, if_pos rfl, getLsbD_setWidth]
        exact hwrong 4 (by decide)
      simp only [getLsbD_and, getLsbD_fVif, decide_true, Bool.and_true] at hvif
      exact Bool.not_ne_self _ (hpop.symm.trans hvif)
    refine ⟨hroom, ?_⟩
    obtain ⟨later, hintact, hfetch, -⟩ := exists_later (Insn.int.next vm ivt ports pre)
      (vm.stackAddr - 6) le_rfl 0 Insn.iret.opcode [] (by decide) (by decide)
    obtain ⟨vm'', hret, hresumed⟩ := h later ports [] hintact hfetch (by decide)
    rw [Insn.iret.handleGPF_next hfetch] at hret
    cases hret
    rw [← hresumed.code]
    exact (iret_finds hroom hstack hintact).2.1.trans_lt (Nat.mod_lt _ (by decide))
  · rintro ⟨hroom, hcode⟩ later ports' pre' hintact hfetch -
    obtain ⟨hsp, hreturn, hword⟩ := iret_finds hroom hstack hintact
    have hif : ((load16 later.mem (later.stackAddr + 4)).setWidth 32).getLsbD 9 =
        vm.rflags.getLsbD 19 := by
      rw [hword, getLsbD_setWidth, getLsbD_setWidth, getLsbD_showVif]
      rfl
    have hbits (i : Nat) (hi : guestFlags.getLsbD i = true) :
        ((load16 later.mem (later.stackAddr + 4)).setWidth 32).getLsbD i = vm.rflags.getLsbD i := by
      obtain ⟨hlt, hne⟩ := getLsbD_guestFlags hi
      rw [hword, getLsbD_setWidth, getLsbD_setWidth, getLsbD_showVif, if_neg hne,
        getLsbD_and]
      interval_cases i <;> simp
    obtain ⟨hvif, hguest, -⟩ := popFlags_restores later.rflags hif hbits
    refine ⟨_, Insn.iret.handleGPF_next hfetch ivt ports', ?_, ?_, hvif, hguest⟩
    · apply eq_of_toNat_eq
      exact hreturn.trans (Nat.mod_eq_of_lt hcode)
    · apply eq_of_toNat_eq
      refine (stackAddr_setSp _ _).trans ?_
      rw [hsp, BitVec.sub_add_cancel]
      exact Nat.mod_eq_of_lt hstack

theorem restores_iff (hstack : vm.stackAddr.toNat < 2 ^ 20) :
    Restores vm (Insn.pushf.next vm ivt ports pre) ivt pre ↔ Room vm pre .pushf := by
  have hsize : Insn.operandSize (Prefixes.none.after pre) ≤ 6 := by
    rw [Insn.operandSize]
    split <;> decide
  have hrflags : (Insn.pushf.next vm ivt ports pre).rflags = vm.rflags := by
    simp only [Insn.next, Insn.emulate, Machine.pushf]
    split <;> rfl
  have hsp : (Insn.pushf.next vm ivt ports pre).stackAddr.toNat =
      (vm.stackAddr - BitVec.ofNat 32 (Insn.operandSize (Prefixes.none.after pre))).toNat %
        2 ^ 20 := by
    simp only [Insn.next, Insn.emulate, Machine.pushf, Insn.operandSize]
    split <;> exact stackAddr_setSp _ _
  constructor
  · intro h
    by_contra hlt
    have hpre : ∃ pre' : List (BitVec 8), pre'.length ≤ 1 ∧ (∀ b ∈ pre', b ∈ accepted) ∧
        (0x66 ∈ pre' ↔ 0x66 ∈ pre) := by
      by_cases hmem : 0x66 ∈ pre
      · exact ⟨[0x66], by decide, by decide, iff_of_true (List.mem_singleton_self _) hmem⟩
      · exact ⟨[], by decide, by decide, iff_of_false List.not_mem_nil hmem⟩
    obtain ⟨pre', hlen, haccepted, hsame⟩ := hpre
    obtain ⟨later, hintact, hfetch, hflags, hwrong⟩ := exists_misread _ hsize hsp
      (Nat.lt_of_not_le hlt) (!vm.rflags.getLsbD 19) Insn.popf.opcode pre' hlen haccepted
    obtain ⟨vm'', hret, hrestored⟩ := h later ports pre' hintact hfetch hsame
      (by rw [hflags, hrflags])
    rw [Insn.popf.handleGPF_next hfetch] at hret
    cases hret
    have hpop : (popFlags later.rflags
        (popWord (Prefixes.none.after pre') later.mem later.stackAddr)).getLsbD 19 =
          !vm.rflags.getLsbD 19 := by
      rw [getLsbD_popFlags, if_pos rfl, getLsbD_popWord _ _ _ (by decide)]
      have := hwrong 0 (by rw [Insn.operandSize]; split <;> decide)
      rwa [BitVec.add_zero] at this
    exact Bool.not_ne_self _ (hpop.symm.trans (congrArg (getLsbD · 19) hrestored))
  · rintro hroom later ports' pre' hintact hfetch - hrest
    refine ⟨_, Insn.popf.handleGPF_next hfetch ivt ports', ?_⟩
    have hword {i : Nat} (hi : i < 16) :
        (popWord (Prefixes.none.after pre') later.mem later.stackAddr).getLsbD i =
          (showVif vm.rflags (vm.rflags &&& guestFlags)).getLsbD i := by
      have hload := hintact.load16_eq (i := 0) (by rw [Insn.operandSize]; split <;> decide)
      rw [BitVec.add_zero] at hload
      rw [getLsbD_popWord _ _ _ hi, hintact.stackAddr_of_room hroom hstack hsp, hload]
      exact pushf_saved vm _ _ hi
    change popFlags later.rflags (popWord _ later.mem later.stackAddr) = _
    refine (popFlags_restores later.rflags ?_ fun i hi => ?_).2.2 hrest
    · rw [hword (by decide), getLsbD_showVif, if_pos rfl]
    · obtain ⟨hlt, hne⟩ := getLsbD_guestFlags hi
      rw [hword (by omega), getLsbD_showVif, if_neg hne, getLsbD_and, hi, Bool.and_true]

end

/-- The interrupt flags are kept if and only if the stack has room above address 0 for what is
pushed and the instruction behind INT is below 1 MiB. -/
theorem handleGPF_flagsKept_iff (insn : Insn) (vm : Machine) (ivt : BitVec 8 → Farptr)
    (ports : Ports) (pre : List (BitVec 8)) (h : Fetched vm pre insn.opcode)
    (hstack : vm.stackAddr.toNat < 2 ^ 20) :
    (∃ vm', vm.handleGPF ivt ports = .ok (0, vm') ∧ FlagsKept vm vm' ivt pre insn) ↔
      Room vm pre insn := by
  have hsame := insn.sameIf_emulate vm ivt ports (Prefixes.none.after pre)
    (vm.codeAddr + BitVec.ofNat 32 pre.length) vm.stackAddr
  rw [insn.exists_handleGPF_iff h]
  cases insn with
  | int =>
      have hshows : ShowsVif vm (Insn.int.next vm ivt ports pre) (vm.stackAddr - 2) := by
        have hword := (int_saved vm ivt (vm.codeAddr + BitVec.ofNat 32 pre.length)).2.2
        rw [show vm.stackAddr - 6 + 4 = vm.stackAddr - 2 by bv_omega] at hword
        refine (congrArg (getLsbD · 9) hword).trans ?_
        simp only [getLsbD_setWidth, getLsbD_showVif]
        rfl
      rw [← resumes_iff hstack]
      exact ⟨fun hkept => hkept.2.2, fun hresumes => ⟨hsame, hshows, hresumes⟩⟩
  | pushf =>
      rw [← restores_iff hstack]
      refine ⟨fun hkept => hkept.2.2, fun hrestores => ⟨hsame, ?_, hrestores⟩⟩
      refine (pushf_saved vm _ _ (by decide)).trans ?_
      rw [getLsbD_showVif, if_pos rfl]
  | _ => exact iff_of_true hsame trivial

theorem handleGPF_flagsKept_iff_int :
    ∃ vm', (Machine.realMode 0 0x100 0 0x100 fun _ => 0xCD).handleGPF (fun _ => ⟨0, 0⟩)
        (fun _ _ _ => 0) = .ok (0, vm') ∧
      FlagsKept (Machine.realMode 0 0x100 0 0x100 fun _ => 0xCD) vm' (fun _ => ⟨0, 0⟩) [] .int :=
  (handleGPF_flagsKept_iff .int _ _ _ [] (.nil rfl) (by decide)).mpr (show _ ∧ _ by decide)

/-- With its stack at 0000:0004, INT at 0000:0100 pushes to the top of the address space and to
address 0, and IRET goes to CFCF:CFCF. -/
theorem iret_misses_return :
    ∃ vm' vm'', (Machine.realMode 0 0x100 0 4 fun a =>
          if a = 0x100 then 0xCD else 0xCF).handleGPF (fun _ => ⟨0x200, 0⟩) (fun _ _ _ => 0) =
        .ok (0, vm') ∧
      vm'.handleGPF (fun _ => ⟨0x200, 0⟩) (fun _ _ _ => 0) = .ok (0, vm'') ∧
      vm'.codeAddr = 0x200 ∧ vm''.codeAddr = realToLin32 0xCFCF 0xCFCF ∧ vm''.codeAddr ≠ 0x102 := by
  exact ⟨_, _, Insn.int.handleGPF_next (.nil (by decide)) _ _,
    Insn.iret.handleGPF_next (.nil (by decide)) _ _, by decide, by decide, by decide⟩

end Quest.Vm
