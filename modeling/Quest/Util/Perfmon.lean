import Quest.Basic
import Quest.Lib.Reach

/-! The estimate of a VCPU's part of the last level cache, `util/perfmon.c`, with the performance
counters enabled. -/
namespace Quest.Util.Perfmon

open Quest.Lib Reach

/-- The counters of local misses, global misses and retired instructions. -/
structure Counters where
  localMiss : BitVec 64
  globalMiss : BitVec 64
  instRet : BitVec 64

def Counters.since (now prev : Counters) : Counters :=
  ⟨now.localMiss - prev.localMiss, now.globalMiss - prev.globalMiss, now.instRet - prev.instRet⟩

structure Vcpu where
  prev : Counters
  cacheOccupancy : BitVec 64
  mpki : BitVec 64

def vcpuAcntStart (vcpu : Vcpu) (now : Counters) : Vcpu := { vcpu with prev := now }

def fls (x : BitVec 32) : Nat := if x = 0 then 0 else Nat.log2 x.toNat + 1

def doDiv (n : BitVec 64) (base : BitVec 32) : Except Fault (BitVec 64) :=
  if base = 0 then .error (.panic "Unhandled exception") else .ok (n / base.setWidth 64)

def div6464 (dividend divisor : BitVec 64) : Except Fault (BitVec 64) :=
  let high := (divisor >>> 32).setWidth 32
  if high ≠ 0 then doDiv (dividend >>> fls high) ((divisor >>> fls high).setWidth 32)
  else doDiv dividend (divisor.setWidth 32)

/-- The loop that counts the bits to shift by, from `i` on. -/
def shiftFrom (llcLines : BitVec 32) : Nat → Nat → Nat
  | 0, i => i
  | fuel + 1, i =>
      if 0 < llcLines >>> i ∧ llcLines >>> i ≠ 1 then shiftFrom llcLines fuel (i + 1) else i

def vcpuAcntEnd (llcLines : BitVec 32) (vcpu : Vcpu) (now : Counters) : Except Fault Vcpu := do
  let ⟨localMiss, globalMiss, instRet⟩ := now.since vcpu.prev
  let i := shiftFrom llcLines 32 0
  let curOccupancy := vcpu.cacheOccupancy + localMiss - (globalMiss >>> i) * vcpu.cacheOccupancy
  let mpki ← div6464 (localMiss * 1000) instRet
  .ok { vcpu with cacheOccupancy := curOccupancy, mpki := mpki }

/-- An accounting interval, with the counters at its start and at its end. -/
def interval (llcLines : BitVec 32) (vcpu : Vcpu) (counters : Counters × Counters) :
    Except Fault Vcpu :=
  vcpuAcntEnd llcLines (vcpuAcntStart vcpu counters.1) counters.2

variable {llcLines : BitVec 32} {vcpu vcpu' : Vcpu} {counters : Counters × Counters}

theorem lt_log2_iff (n i : Nat) : i < Nat.log2 n ↔ 2 ^ (i + 1) ≤ n := by
  rcases Nat.eq_zero_or_pos n with rfl | hpos
  · simp
  · exact Nat.le_log2 (Nat.ne_of_gt hpos)

theorem shiftFrom_eq_log2 (llcLines : BitVec 32) {i fuel : Nat}
    (hi : i ≤ Nat.log2 llcLines.toNat) (hfuel : i + fuel = 32) :
    shiftFrom llcLines fuel i = Nat.log2 llcLines.toNat := by
  have hlog := lt_log2_iff llcLines.toNat i
  induction fuel generalizing i with
  | zero =>
    subst hfuel
    rw [shiftFrom]
    omega
  | succ fuel ih =>
    have hmore : (0 < llcLines >>> i ∧ llcLines >>> i ≠ 1) ↔ i < Nat.log2 llcLines.toNat := by
      rw [hlog, Nat.pow_succ', ← Nat.le_div_iff_mul_le (Nat.two_pow_pos i), BitVec.lt_def, Ne,
        ← BitVec.toNat_inj, BitVec.toNat_ushiftRight, Nat.shiftRight_eq_div_pow]
      change 0 < _ ∧ ¬_ = 1 ↔ _
      omega
    rw [shiftFrom]
    split
    · rename_i hlt
      exact ih (hmore.mp hlt) (by omega) (lt_log2_iff _ _)
    · rename_i hge
      exact Nat.le_antisymm hi (Nat.le_of_not_lt (hge ∘ hmore.mpr))

theorem doDiv_returns_iff (n : BitVec 64) (base : BitVec 32) :
    (∃ q, doDiv n base = .ok q) ↔ base ≠ 0 := by
  rw [doDiv]
  split
  · rename_i h
    exact iff_of_false (by rintro ⟨q, hq⟩; cases hq) (not_not_intro h)
  · rename_i h
    exact iff_of_true ⟨_, rfl⟩ h

theorem div6464_returns_iff (a b : BitVec 64) : (∃ q, div6464 a b = .ok q) ↔ b ≠ 0 := by
  have hhigh : ((b >>> 32).setWidth 32).toNat = b.toNat / 2 ^ 32 := by
    simp only [BitVec.toNat_setWidth, BitVec.toNat_ushiftRight, Nat.shiftRight_eq_div_pow]
    omega
  rw [div6464]
  split
  · rename_i hne
    rw [doDiv_returns_iff, fls, if_neg hne, hhigh]
    refine iff_of_true (fun hzero => ?_) fun hb => hne (by rw [hb]; rfl)
    rw [Ne, ← BitVec.toNat_inj, hhigh] at hne
    have hle := Nat.log2_self_le hne
    have hlt := Nat.lt_log2_self (n := b.toNat / 2 ^ 32)
    generalize Nat.log2 (b.toNat / 2 ^ 32) = k at *
    have hquot : 2 ^ 31 ≤ b.toNat / 2 ^ (k + 1) ∧ b.toNat / 2 ^ (k + 1) < 2 ^ 32 := by
      rw [Nat.le_div_iff_mul_le (Nat.two_pow_pos _), Nat.div_lt_iff_lt_mul (Nat.two_pow_pos _)]
      omega
    rw [← BitVec.toNat_inj, BitVec.toNat_setWidth, BitVec.toNat_ushiftRight,
      Nat.shiftRight_eq_div_pow, Nat.mod_eq_of_lt hquot.2] at hzero
    exact absurd hquot.1 (by rw [hzero]; decide)
  · rename_i heq
    rw [Classical.not_not, ← BitVec.toNat_inj, hhigh] at heq
    have heq : b.toNat / 2 ^ 32 = 0 := heq
    rw [doDiv_returns_iff, Ne, ← BitVec.toNat_inj, BitVec.toNat_setWidth,
      Nat.mod_eq_of_lt (by omega), Ne, ← BitVec.toNat_inj]
    rfl

/-- The global misses in multiples of the cache, its lines rounded down to a power of two. -/
def turns (llcLines : BitVec 32) (d : Counters) : Nat :=
  d.globalMiss.toNat / 2 ^ Nat.log2 llcLines.toNat

/-- Instructions were retired, and the estimate loses no more than it has and keeps no more than
the cache has lines. -/
def Allowed (llcLines : BitVec 32) (vcpu : Vcpu) (counters : Counters × Counters) : Prop :=
  let d := counters.2.since counters.1
  let occupancy := vcpu.cacheOccupancy.toNat
  d.instRet ≠ 0 ∧ turns llcLines d * occupancy ≤ occupancy + d.localMiss.toNat ∧
    occupancy + d.localMiss.toNat ≤ llcLines.toNat + turns llcLines d * occupancy

/-- The new estimate is the one without a bound on the numbers, and at most the whole cache. -/
def Estimated (llcLines : BitVec 32) (vcpu : Vcpu) (counters : Counters × Counters)
    (vcpu' : Vcpu) : Prop :=
  let d := counters.2.since counters.1
  let occupancy := vcpu.cacheOccupancy.toNat
  vcpu'.cacheOccupancy.toNat + turns llcLines d * occupancy = occupancy + d.localMiss.toNat ∧
    vcpu'.cacheOccupancy.toNat ≤ llcLines.toNat

theorem estimated_iff (llcLines : BitVec 32) (vcpu : Vcpu) (counters : Counters × Counters) :
    (∃ vcpu', interval llcLines vcpu counters = .ok vcpu' ∧
      Estimated llcLines vcpu counters vcpu') ↔ Allowed llcLines vcpu counters := by
  rw [Allowed]
  simp only [Estimated]
  generalize hd : counters.2.since counters.1 = d
  obtain ⟨cur, hcur⟩ : ∃ cur, cur = vcpu.cacheOccupancy + d.localMiss -
    (d.globalMiss >>> shiftFrom llcLines 32 0) * vcpu.cacheOccupancy := ⟨_, rfl⟩
  have hstep : interval llcLines vcpu counters = div6464 (d.localMiss * 1000) d.instRet >>=
      fun mpki => .ok ⟨counters.1, cur, mpki⟩ := by
    rw [hcur, ← hd]
    rfl
  have hnat : cur.toNat = (2 ^ 64 - turns llcLines d * vcpu.cacheOccupancy.toNat % 2 ^ 64 +
      (vcpu.cacheOccupancy.toNat + d.localMiss.toNat) % 2 ^ 64) % 2 ^ 64 := by
    rw [hcur, shiftFrom_eq_log2 _ (Nat.zero_le _) rfl, BitVec.toNat_sub, BitVec.toNat_mul,
      BitVec.toNat_add, BitVec.toNat_ushiftRight, Nat.shiftRight_eq_div_pow, turns]
  have hlines := llcLines.isLt
  rw [hstep, ← div6464_returns_iff (d.localMiss * 1000)]
  constructor
  · rintro ⟨vcpu', hok, hexact, hle⟩
    obtain ⟨mpki, hdiv, -⟩ := bind_eq_ok.mp hok
    exact ⟨⟨mpki, hdiv⟩, by omega, by omega⟩
  · rintro ⟨⟨mpki, hdiv⟩, hoff, hleft⟩
    refine ⟨_, bind_eq_ok.mpr ⟨mpki, hdiv, rfl⟩, ?_⟩
    dsimp only
    omega

end Quest.Util.Perfmon
