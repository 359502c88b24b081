import Quest.Basic
import Quest.Lib.Reach

/-! Who takes entries of the GDT (`boot/init.c`, `arch/i386/percpu.c`, `duplicate_TSS`), and who
gives them back (`__exit`).  A task is named by the selector of its entry. -/
namespace Quest.Task

open Quest.Lib Reach Function

structure Descriptor where
  uLimit0 : Nat
  pBase0 : Nat
  pBase1 : Nat
  uType : Nat
  uDPL : Nat
  fPresent : Nat
  uLimit1 : Nat
  f : Nat
  f0 : Nat
  fX : Nat
  fGranularity : Nat
  pBase2 : Nat
  deriving DecidableEq, Repr

namespace Descriptor

def zero : Descriptor := ⟨0, 0, 0, 0, 0, 0, 0, 0, 0, 0, 0, 0⟩

def base (d : Descriptor) : Nat := d.pBase0 ||| d.pBase1 <<< 16 ||| d.pBase2 <<< 24

def setTss (d : Descriptor) (limit tssp : Nat) : Descriptor :=
  { d with
    uLimit0 := limit, uLimit1 := 0, pBase0 := tssp &&& 0xFFFF, pBase1 := (tssp >>> 16) &&& 0xFF,
    pBase2 := tssp >>> 24, uType := 0x09, uDPL := 0, fPresent := 1, f0 := 0, fX := 0,
    fGranularity := 0 }

def perCpu (startVirt limit : Nat) : Descriptor where
  pBase0 := startVirt &&& 0xFFFF
  pBase1 := (startVirt >>> 16) &&& 0xFF
  pBase2 := (startVirt >>> 24) &&& 0xFF
  uLimit0 := limit &&& 0xFFFF
  uType := 0x12
  uDPL := 0
  fPresent := 1
  uLimit1 := (limit >>> 16) &&& 0xF
  f := 0
  f0 := 0
  fX := 1
  fGranularity := 0

/-- The code and data segments of `initial_gdt`, at base 0. -/
def flat (uType uDPL uLimit1 : Nat) : Descriptor :=
  { zero with
    uLimit0 := 0xFFFF, uType := uType, uDPL := uDPL, fPresent := 1, uLimit1 := uLimit1, fX := 1,
    fGranularity := 1 }

theorem split_base (a : Nat) :
    (a &&& 0xFFFF) ||| ((a >>> 16) &&& 0xFF) <<< 16 ||| (a >>> 24) <<< 24 = a := by
  have hlow : a &&& 0xFFFF = a % 2 ^ 16 := Nat.and_two_pow_sub_one_eq_mod a 16
  have hmid : (a >>> 16) &&& 0xFF = a >>> 16 % 2 ^ 8 := Nat.and_two_pow_sub_one_eq_mod _ 8
  have hinner : a % 2 ^ 16 ||| (a >>> 16 % 2 ^ 8) <<< 16 =
      (a >>> 16 % 2 ^ 8) <<< 16 + a % 2 ^ 16 := by
    rw [Nat.or_comm, Nat.shiftLeft_add_eq_or_of_lt (Nat.mod_lt _ (by decide))]
  have hlt : (a >>> 16 % 2 ^ 8) <<< 16 + a % 2 ^ 16 < 2 ^ 24 := by
    omega
  rw [hlow, hmid, hinner, Nat.or_comm, ← Nat.shiftLeft_add_eq_or_of_lt hlt]
  omega

theorem base_setTss (d : Descriptor) (limit tssp : Nat) : (d.setTss limit tssp).base = tssp :=
  split_base tssp

theorem base_perCpu (limit : Nat) {startVirt : Nat} (h : startVirt < 2 ^ 32) :
    (perCpu startVirt limit).base = startVirt := by
  have hhigh : (startVirt >>> 24) &&& 0xFF = startVirt >>> 24 := by
    rw [Nat.and_two_pow_sub_one_eq_mod _ 8, Nat.shiftRight_eq_div_pow]
    omega
  rw [base, perCpu]
  rw [hhigh, split_base]

end Descriptor

inductive Use where
  | empty
  | flat
  | perCpu
  | cpuTss
  | task
  deriving DecidableEq, Repr

/-- The descriptors that a 16-bit selector reaches from `KERN_GDT` on, and the use of the first
256, which are the GDT. -/
structure Gdt where
  ad : Nat → Descriptor
  use : Nat → Use

namespace Gdt

def freeFrom (g : Gdt) : Nat → Nat → Option Nat
  | 0, _ => none
  | rounds + 1, i => if (g.ad i).fPresent = 0 then some i else g.freeFrom rounds (i + 1)

def take (g : Gdt) (message : String) (use : Use) (fill : Descriptor → Descriptor) :
    Except Fault (Nat × Gdt) :=
  match g.freeFrom 255 1 with
  | none => .error (.panic message)
  | some i => .ok (i <<< 3, ⟨update g.ad i (fill (g.ad i)), update g.use i use⟩)

def allocCpuTss (g : Gdt) (tssp : Nat) : Except Fault (Nat × Gdt) :=
  g.take "No free selector for TSS" .cpuTss fun d => d.setTss 104 tssp

def allocIdleTss (g : Gdt) (pTss : Nat) : Except Fault (Nat × Gdt) :=
  g.take "No free selector for TSS" .task fun d => d.setTss 187 pTss

def allocTss (g : Gdt) (pTss : Nat) : Except Fault (Nat × Gdt) :=
  g.take "No free selector for TSS" .task fun d => d.setTss 0xFFF pTss

def duplicateTss (g : Gdt) (pTss : Nat) : Except Fault (Nat × Gdt) :=
  g.take "No free selector for TSS" .task fun d => d.setTss 0xFFF pTss

def percpuPerCpuInit (g : Gdt) (startVirt limit : Nat) : Except Fault (Nat × Gdt) :=
  g.take "out of GDT" .perCpu fun _ => .perCpu startVirt limit

def exit (g : Gdt) (tss : Nat) : Gdt :=
  ⟨update g.ad (tss >>> 3) .zero, update g.use (tss >>> 3) .empty⟩

def boot (behind : Nat → Descriptor) : Gdt where
  ad i :=
    if i = 1 then .flat 0x1A 0 0xF else if i = 2 then .flat 0x12 0 0xF
    else if i = 3 then .flat 0x1A 3 0xB else if i = 4 then .flat 0x12 3 0xB
    else if i < 256 then .zero else behind i
  use i := if 1 ≤ i ∧ i ≤ 4 then .flat else .empty

inductive Event where
  | allocCpuTss (tssp : Nat)
  | allocIdleTss (pTss : Nat)
  | allocTss (pTss : Nat)
  | duplicateTss (pTss : Nat)
  | percpuPerCpuInit (startVirt limit : Nat)
  | exit (tss : Nat)
  | behind (memory : Nat → Descriptor)

def step (g : Gdt) : Event → Except Fault Gdt
  | .allocCpuTss tssp => Prod.snd <$> g.allocCpuTss tssp
  | .allocIdleTss pTss => Prod.snd <$> g.allocIdleTss pTss
  | .allocTss pTss => Prod.snd <$> g.allocTss pTss
  | .duplicateTss pTss => Prod.snd <$> g.duplicateTss pTss
  | .percpuPerCpuInit startVirt limit => Prod.snd <$> g.percpuPerCpuInit startVirt limit
  | .exit tss => .ok (g.exit tss)
  | .behind memory => .ok { g with ad := fun i => if i < 256 then g.ad i else memory i }

def Pointer (a : Nat) : Prop := a ≠ 0 ∧ a < 2 ^ 32

instance (a : Nat) : Decidable (Pointer a) := inferInstanceAs (Decidable (_ ∧ _))

/-- TSSs and segments are objects of the kernel, and only tasks exit. -/
def Allowed (g : Gdt) : Event → Prop
  | .allocCpuTss a | .allocIdleTss a | .allocTss a | .duplicateTss a | .percpuPerCpuInit a _ =>
      Pointer a
  | .exit tss => tss >>> 3 < 256 ∧ g.use (tss >>> 3) = .task
  | .behind _ => True

instance (g : Gdt) (e : Event) : Decidable (g.Allowed e) := by
  cases e <;> unfold Allowed <;> infer_instance

def Reachable (g : Gdt) : Prop := ∃ behind, Reaches step Allowed (boot behind) g

/-! The use of an entry tells whether its base is 0. -/

/-- The entries that `lookup_TSS` takes for a task. -/
def Use.Based (use : Use) : Prop := use ≠ .empty ∧ use ≠ .flat

instance (use : Use) : Decidable (Use.Based use) := inferInstanceAs (Decidable (_ ∧ _))

structure Accounted (g : Gdt) : Prop where
  null : g.use 0 = .empty
  based : ∀ i < 256, (g.ad i).base ≠ 0 ↔ Use.Based (g.use i)
  present : ∀ i, 1 ≤ i → i < 256 → ((g.ad i).fPresent = 0 ↔ g.use i = .empty)

variable {g g' : Gdt} {i j rounds : Nat} {use : Use}

theorem freeFrom_spec (h : g.freeFrom rounds i = some j) :
    i ≤ j ∧ j < i + rounds ∧ (g.ad j).fPresent = 0 := by
  induction rounds generalizing i with
  | zero => cases h
  | succ rounds ih =>
    rw [freeFrom] at h
    split at h
    · rename_i hfree
      cases h
      exact ⟨le_rfl, by omega, hfree⟩
    · obtain ⟨hle, hlt, hfree⟩ := ih h
      exact ⟨by omega, by omega, hfree⟩

theorem Accounted.update (h : g.Accounted) (hj : 1 ≤ j) {d : Descriptor}
    (hbase : d.base ≠ 0 ↔ Use.Based use) (hpres : d.fPresent = 0 ↔ use = .empty) :
    Accounted ⟨update g.ad j d, update g.use j use⟩ := by
  refine ⟨?_, ?_, ?_⟩
  · have hne : 0 ≠ j := by omega
    exact (update_of_ne hne use g.use).trans h.null
  · intro i hi
    obtain rfl | hne := eq_or_ne i j
    · simpa using hbase
    · simpa [update_of_ne hne] using h.based i hi
  · intro i hpos hi
    obtain rfl | hne := eq_or_ne i j
    · simpa using hpres
    · simpa [update_of_ne hne] using h.present i hpos hi

theorem Accounted.take {message : String} {fill : Descriptor → Descriptor} {selector : Nat}
    (h : g.Accounted) (hret : g.take message use fill = .ok (selector, g'))
    (hbase : ∀ d, (fill d).base ≠ 0 ↔ Use.Based use)
    (hpres : ∀ d, (fill d).fPresent = 0 ↔ use = .empty) : g'.Accounted := by
  rw [Gdt.take] at hret
  split at hret
  · cases hret
  · rename_i j hfree
    cases hret
    exact h.update (freeFrom_spec hfree).1 (hbase _) (hpres _)

theorem Accounted.takeTss {message : String} {limit tssp selector : Nat} (h : g.Accounted)
    (hptr : Pointer tssp)
    (hret : (g.take message use fun d => d.setTss limit tssp) = .ok (selector, g'))
    (huse : Use.Based use) : g'.Accounted := by
  apply h.take hret
  · intro d
    rw [Descriptor.base_setTss d limit]
    exact iff_of_true hptr.1 huse
  · intro d
    exact iff_of_false (fun hzero => nomatch hzero) huse.1

theorem Accounted.step (h : g.Accounted) {e : Event} (hallow : g.Allowed e)
    (hok : g.step e = .ok g') : g'.Accounted := by
  cases e with
  | allocCpuTss tssp | allocIdleTss pTss | allocTss pTss | duplicateTss pTss =>
    obtain ⟨r, hret, rfl⟩ := map_eq_ok.mp hok
    exact h.takeTss hallow hret (by decide)
  | percpuPerCpuInit startVirt limit =>
    obtain ⟨r, hret, rfl⟩ := map_eq_ok.mp hok
    apply h.take hret
    · intro d
      rw [Descriptor.base_perCpu limit hallow.2]
      exact iff_of_true hallow.1 (by decide)
    · intro d
      exact iff_of_false (fun hzero => nomatch hzero) nofun
  | exit tss =>
    cases hok
    have hne : tss >>> 3 ≠ 0 := by
      intro hzero
      rw [Allowed, hzero, h.null] at hallow
      exact nomatch hallow.2
    exact h.update (by omega) (by decide) (by decide)
  | behind memory =>
    cases hok
    refine ⟨h.null, ?_, ?_⟩
    · intro i hi
      simpa [hi] using h.based i hi
    · intro i hpos hi
      simpa [hi] using h.present i hpos hi

theorem accounted_boot (behind : Nat → Descriptor) : (boot behind).Accounted := by
  refine ⟨rfl, ?_, ?_⟩
  · intro i hi
    simp only [boot, hi, if_true]
    split_ifs <;> decide
  · intro i hpos hi
    simp only [boot, hi, if_true]
    split_ifs <;> first | decide | omega

theorem Reachable.accounted (h : g.Reachable) : g.Accounted := by
  obtain ⟨behind, h⟩ := h
  apply h.invariant Accounted (accounted_boot behind)
  intro g g' e hinv hallow hok
  exact hinv.step hallow hok

end Gdt

end Quest.Task
