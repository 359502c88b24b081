import Quest.Sched.Hooks
import Quest.Sched.Ledger

/-! I/O VCPUs: the hooks `io_vcpu_*` of `sched/vcpu.c`, and the two ways in which a request
changes the period. -/
namespace Quest.Sched.Pibs

open Quest.Sched.Hooks
open Quest.Sched.Ledger (Entry)

/-- `firstUnblock` and `folds` are not in the source: the time of the first call of
`io_vcpu_unblock`, and how often `usage` was folded into the eligibility time. -/
structure IoVcpu where
  T : Nat
  b : Nat
  usage : Nat
  e : Nat
  r : Entry
  Unum : Nat
  Uden : Nat
  budgeted : Bool
  firstUnblock : Option Nat
  folds : Nat
  deriving DecidableEq

def IoVcpu.cmax (v : IoVcpu) : Nat := v.T * v.Unum / v.Uden

def ioVcpuUpdateReplenishments (v : IoVcpu) (tcur : Nat) : IoVcpu :=
  if v.r.t ≠ 0 ∧ v.r.t ≤ tcur then { v with b := v.r.b, r := ⟨0, v.r.b⟩ } else v

def ioVcpuNextEvent (v : IoVcpu) : Nat := v.r.t

/-- The branch of `io_vcpu_end_timeslice` for a VCPU that blocked or has no
budget left. -/
def fold (cur : IoVcpu) (runnable : Bool) (usage : Nat) : IoVcpu :=
  let e := cur.e + usage * cur.Uden / cur.Unum
  { cur with
    e := e
    r := if cur.r.t = 0 then ⟨e, cur.cmax⟩ else ⟨e, cur.r.b⟩
    usage := 0
    b := 0
    budgeted := if runnable then cur.budgeted else false
    folds := cur.folds + 1 }

def ioVcpuEndTimeslice (cur : IoVcpu) (runnable : Bool) (tdelta : Nat) : IoVcpu :=
  let u := if cur.b < tdelta then cur.b else tdelta
  let b := cur.b - u
  let usage := cur.usage + tdelta
  if runnable = false ∨ b = 0 then fold cur runnable usage
  else { cur with b := b, usage := usage }

def ioVcpuUnblock (v : IoVcpu) (now : Nat) : IoVcpu :=
  let e := if v.budgeted = false ∧ v.e < now then now else v.e
  { v with
    e := e
    r := if v.r.t = 0 then if v.budgeted then v.r else ⟨e, v.cmax⟩ else ⟨v.r.t, v.cmax⟩
    budgeted := true
    firstUnblock := v.firstUnblock.or (some now) }

def ioServer : Server IoVcpu where
  updateReplenishments v tcur _ := ioVcpuUpdateReplenishments v tcur
  nextEvent v _ := ioVcpuNextEvent v
  endTimeslice v runnable tdelta _ := ioVcpuEndTimeslice v runnable tdelta
  unblock v tsc := ioVcpuUnblock v tsc.first
  budget := IoVcpu.b

/-- The state in which `vcpu_init` leaves an I/O VCPU with the parameters `C` and
`T`, in units of `tsc_unit_freq`. -/
def ioVcpuInit (C T tscUnitFreq : Nat) : IoVcpu where
  T := T * tscUnitFreq
  b := C * tscUnitFreq
  usage := 0
  e := 0
  r := ⟨0, 0⟩
  Unum := C
  Uden := T
  budgeted := false
  firstUnblock := none
  folds := 0

def setPeriod (h : Hosted IoVcpu) (T : Nat) : Hosted IoVcpu :=
  { h with server := { h.server with T := T } }

def iovcpuJobWakeup (h : Hosted IoVcpu) (T : Nat) (unblock : Tsc) (now : Nat) (update : Tsc) :
    Except Fault (Hosted IoVcpu) :=
  let h := if T < h.server.T ∨ ¬(h.running ∨ h.runnable) then setPeriod h T else h
  h.wakeup ioServer.hooks unblock now update

/-- What happens to an I/O VCPU.  An ATAPI request is the assignment of
`atapi_drive_read_sector`, which then waits: the wakeup comes with the interrupt
of the drive. -/
inductive IoEvent where
  | host (event : HostEvent)
  | jobWakeup (T : Nat) (unblock : Tsc) (now : Nat) (update : Tsc)
  | atapiRequest (T : Nat)
  deriving DecidableEq

def ioStep (h : Hosted IoVcpu) : IoEvent → Except Fault (Hosted IoVcpu)
  | .host event => h.step ioServer.hooks event
  | .jobWakeup T unblock now update => iovcpuJobWakeup h T unblock now update
  | .atapiRequest T => .ok (setPeriod h T)

def IoClockForward (h : Hosted IoVcpu) : IoEvent → Prop
  | .host event => ClockForward h event
  | .jobWakeup _ unblock now update => ClockForward h (.wakeup unblock now update)
  | .atapiRequest _ => True

instance (h : Hosted IoVcpu) : (event : IoEvent) → Decidable (IoClockForward h event)
  | .host event => inferInstanceAs (Decidable (ClockForward h event))
  | .jobWakeup _ _ _ _ => inferInstanceAs (Decidable (ClockForward h _))
  | .atapiRequest _ => isTrue trivial

theorem iovcpuJobWakeup_eq (h : Hosted IoVcpu) (T : Nat) (unblock : Tsc) (now : Nat)
    (update : Tsc) :
    ∃ T', iovcpuJobWakeup h T unblock now update =
        (setPeriod h T').wakeup ioServer.hooks unblock now update ∧
      (T' = T ∧ (T < h.server.T ∨ h.busy = false) ∨
        T' = h.server.T ∧ h.busy = true ∧ h.server.T ≤ T) := by
  unfold iovcpuJobWakeup Hosted.busy
  dsimp only
  split
  · rename_i hassign
    refine ⟨T, rfl, .inl ⟨rfl, ?_⟩⟩
    cases hready : h.runnable <;> cases hrun : h.running <;> simp_all
  · rename_i hkeep
    refine ⟨h.server.T, rfl, .inr ⟨rfl, ?_⟩⟩
    cases hready : h.runnable <;> cases hrun : h.running <;> simp_all

theorem update_due {v : IoVcpu} {tcur : Nat} (hset : v.r.t ≠ 0) (hdue : v.r.t ≤ tcur) :
    ioVcpuUpdateReplenishments v tcur = { v with b := v.r.b, r := ⟨0, v.r.b⟩ } :=
  if_pos ⟨hset, hdue⟩

theorem update_unset {v : IoVcpu} (hset : v.r.t = 0) (tcur : Nat) :
    ioVcpuUpdateReplenishments v tcur = v :=
  if_neg fun hdue => hdue.1 hset

theorem update_frame (v : IoVcpu) (tcur : Nat) :
    ∃ b r, ioVcpuUpdateReplenishments v tcur = { v with b := b, r := r } := by
  unfold ioVcpuUpdateReplenishments
  split
  · exact ⟨_, _, rfl⟩
  · exact ⟨v.b, v.r, rfl⟩

theorem eligibility_update (v : IoVcpu) (tcur : Nat) :
    (ioVcpuUpdateReplenishments v tcur).e = v.e := by
  obtain ⟨b, r, hupdate⟩ := update_frame v tcur
  rw [hupdate]

theorem ioVcpuEndTimeslice_eq (v : IoVcpu) (runnable : Bool) (tdelta : Nat) :
    ioVcpuEndTimeslice v runnable tdelta =
      if runnable = false ∨ v.b ≤ tdelta then fold v runnable (v.usage + tdelta)
      else { v with b := v.b - tdelta, usage := v.usage + tdelta } := by
  have hrest : (v.b - if v.b < tdelta then v.b else tdelta) = v.b - tdelta := by
    split <;> omega
  simp only [ioVcpuEndTimeslice, hrest, Nat.sub_eq_zero_iff_le]

theorem eligibility_endTimeslice (v : IoVcpu) (runnable : Bool) (tdelta : Nat) :
    v.e ≤ (ioVcpuEndTimeslice v runnable tdelta).e := by
  rw [ioVcpuEndTimeslice_eq]
  split
  · exact Nat.le_add_right _ _
  · exact le_rfl

theorem eligibility_unblock (v : IoVcpu) (now : Nat) : v.e ≤ (ioVcpuUnblock v now).e := by
  simp only [ioVcpuUnblock]
  split
  · rename_i hpast
    exact le_of_lt hpast.2
  · exact le_rfl

variable {h h' : Hosted IoVcpu}

theorem eligibility_wakeup {unblock update : Tsc} {now : Nat}
    (hstep : h.wakeup ioServer.hooks unblock now update = .ok h') : h.server.e ≤ h'.server.e := by
  obtain ⟨-, -, rfl⟩ | ⟨-, rfl⟩ := wakeup_cases hstep
  · dsimp only [ioServer]
    rw [eligibility_update]
    exact eligibility_unblock _ _
  · dsimp only [ioServer]
    rw [eligibility_update]

theorem eligibility_step (event : IoEvent) (hstep : ioStep h event = .ok h') :
    h.server.e ≤ h'.server.e := by
  cases event with
  | host event =>
    cases event with
    | wakeup unblock now update => exact eligibility_wakeup hstep
    | schedule tcur endTsc scan update =>
      obtain ⟨h1, hslice, hscan⟩ := bind_eq_ok.mp hstep
      have hfirst : h.server.e ≤ h1.server.e := by
        obtain ⟨-, rfl⟩ | ⟨-, rfl⟩ := endTimeslice_cases hslice
        · exact eligibility_endTimeslice _ _ _
        · exact le_rfl
      have hsecond : h'.server.e = h1.server.e := by
        obtain rfl | ⟨-, rfl⟩ | ⟨-, -, -, -, rfl⟩ := scan_cases hscan
        · rfl
        · exact eligibility_update _ _
        · exact eligibility_update _ _
      rw [hsecond]
      exact hfirst
  | jobWakeup T unblock now update =>
    obtain ⟨T', hwake, -⟩ := iovcpuJobWakeup_eq h T unblock now update
    rw [ioStep, hwake] at hstep
    exact eligibility_wakeup (h := setPeriod h T') hstep
  | atapiRequest T =>
    rw [ioStep] at hstep
    cases hstep
    exact le_rfl

/-! An invariant of the VCPU that is running or runnable, and one of the VCPU that is neither. -/

section Phases

structure Phased (P Q : IoVcpu → Prop) (h : Hosted IoVcpu) : Prop where
  clock : 0 < h.clock
  busy : h.busy = true → P h.server
  idle : h.busy = false → Q h.server

structure Alternate (P Q : IoVcpu → Prop) : Prop where
  update : ∀ v tcur, P v → P (ioVcpuUpdateReplenishments v tcur)
  endTimeslice : ∀ v runnable tdelta, P v → P (ioVcpuEndTimeslice v runnable tdelta)
  sleep : ∀ v tdelta, P v → Q (ioVcpuEndTimeslice v false tdelta)
  unblock : ∀ v woken tcur, Q v → 0 < woken → woken ≤ tcur →
    P (ioVcpuUpdateReplenishments (ioVcpuUnblock v woken) tcur)

variable {P Q : IoVcpu → Prop} {tcur : Nat}

variable (halt : Alternate P Q)
include halt

variable (hphased : Phased P Q h)
include hphased

theorem phased_wakeup {unblock update : Tsc}
    (hclock : ClockForward h (.wakeup unblock tcur update))
    (hstep : h.wakeup ioServer.hooks unblock tcur update = .ok h') : Phased P Q h' := by
  obtain ⟨hunblock, hsecond, hnow, hupdate⟩ := clockForward_wakeup.mp hclock
  have hstart := hphased.clock
  obtain ⟨hready, hrun, rfl⟩ | ⟨hbusy, rfl⟩ := wakeup_cases hstep
  · have hidle := hphased.idle (by rw [Hosted.busy, hready, hrun, Bool.or_false])
    refine ⟨by dsimp only; omega, fun _ => ?_, nofun⟩
    exact halt.unblock _ _ _ hidle (by omega) (by omega)
  · exact ⟨by dsimp only; omega, fun _ => halt.update _ _ (hphased.busy hbusy), nofun⟩

theorem phased_endTimeslice {tsc : Tsc}
    (htcur : h.clock ≤ tcur) (htsc : tcur ≤ tsc.third)
    (hstep : h.endTimeslice ioServer.hooks tcur tsc = .ok h') : Phased P Q h' := by
  have hstart := hphased.clock
  obtain ⟨hrun, rfl⟩ | ⟨-, rfl⟩ := endTimeslice_cases hstep
  · have hbusy := hphased.busy (by rw [Hosted.busy, hrun, Bool.or_true])
    refine ⟨by dsimp only; omega, fun _ => halt.endTimeslice _ _ _ hbusy, fun hidle => ?_⟩
    rw [Hosted.busy, Bool.or_false] at hidle
    rw [hidle]
    exact halt.sleep _ _ hbusy
  · exact ⟨by dsimp only; omega, hphased.busy, hphased.idle⟩

theorem phased_scan {scan : Scan} {tsc : Tsc}
    (htsc : h.clock ≤ tsc.first) (hstep : h.scan ioServer.hooks tcur scan tsc = .ok h') :
    Phased P Q h' := by
  have hstart := hphased.clock
  have hbusy (hready : h.runnable = true) : P (ioVcpuUpdateReplenishments h.server tcur) :=
    halt.update _ _ (hphased.busy (by rw [Hosted.busy, hready, Bool.true_or]))
  obtain rfl | ⟨hready, rfl⟩ | ⟨-, hready, -, more, rfl⟩ := scan_cases hstep
  · exact hphased
  · refine ⟨by dsimp only; omega, fun _ => hbusy hready, fun hidle => ?_⟩
    rw [Hosted.busy, hready] at hidle
    cases hidle
  · refine ⟨by dsimp only; omega, fun _ => hbusy hready, fun hidle => ?_⟩
    rw [Hosted.busy, Bool.or_true] at hidle
    cases hidle

theorem phased_step {event : IoEvent}
    (hclock : IoClockForward h event)
    (hperiod : match event with
      | .host _ => True
      | .jobWakeup T _ _ _ | .atapiRequest T => Phased P Q (setPeriod h T))
    (hstep : ioStep h event = .ok h') : Phased P Q h' := by
  cases event with
  | host event =>
    cases event with
    | wakeup unblock now update => exact phased_wakeup halt hphased hclock hstep
    | schedule tcur endTsc scan update =>
      obtain ⟨htcur, hend, hsecond, hthird, hupdate⟩ := clockForward_schedule.mp hclock
      obtain ⟨h1, hslice, hscan⟩ := bind_eq_ok.mp hstep
      have hphased1 := phased_endTimeslice halt hphased htcur (by omega) hslice
      refine phased_scan halt hphased1 ?_ hscan
      obtain ⟨-, rfl⟩ | ⟨-, rfl⟩ := endTimeslice_cases hslice <;> dsimp only <;> omega
  | jobWakeup T unblock now update =>
    obtain ⟨T', hjob, ⟨rfl, -⟩ | ⟨rfl, -⟩⟩ := iovcpuJobWakeup_eq h T unblock now update
    · exact phased_wakeup halt hperiod hclock (hjob.symm.trans hstep)
    · exact phased_wakeup halt hphased hclock (hjob.symm.trans hstep)
  | atapiRequest T =>
    cases hstep
    exact hperiod

end Phases

end Quest.Sched.Pibs
