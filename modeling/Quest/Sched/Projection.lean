import Quest.Sched.RunInvariants

/-! In every run of the scheduler each VCPU goes through a run of its own, in the order that the
protocol of the hooks fixes. -/
namespace Quest.Sched.Projection

open Lib.Reach Hooks Sched.Core Budgets Rules Refinement RunInvariants Function

variable {σ τ : Type} {n : Nat}

section Vcpu

inductive VcpuEvent where
  | host (event : HostEvent)
  | request (T : Nat)

variable (cfg : Config σ τ n) (v : Fin n) (h : Hosted σ)

/-- A job wakeup is a request, if it changes the period, and a wakeup. -/
def vcpuStep : VcpuEvent → Except Fault (Hosted σ)
  | .host event => h.step (cfg.hooks v) event
  | .request T => .ok { h with server := cfg.setPeriod h.server T }

/-- The clock does not go back, and requests are for IO VCPUs. -/
def VcpuForward : VcpuEvent → Prop
  | .host event => ClockForward h event
  | .request _ => cfg.type v = .io

end Vcpu

/-- The scheduler with the last reading of the clock, and the intervals for which
each VCPU was charged. -/
structure Clocked (σ τ : Type) (n : Nat) where
  sched : Scheduler σ τ n
  clock : Nat
  charges : Fin n → List (Nat × Nat)

inductive Event (τ : Type) (n : Nat) where
  | wakeup (p : Nat) (task : τ) (tsc : WakeupTsc)
  | jobWakeup (p : Nat) (job : τ) (T : Nat) (tsc : WakeupTsc)
  | schedule (p : Nat) (tsc : ScheduleTsc n)
  | bind (task : τ) (cpu : Nat)
  | request (v : Fin n) (T : Nat)

section Run

variable [DecidableEq τ] [Fintype τ] (cfg : Config σ τ n)

def charge (c : Clocked σ τ n) (p tcur : Nat) : Fin n → List (Nat × Nat) :=
  (c.sched.vcpuCurrent p).elim c.charges fun cur =>
    update c.charges cur ((c.sched.pcpuTprev p, tcur) :: c.charges cur)

def step (c : Clocked σ τ n) : Event τ n → Except Fault (Clocked σ τ n)
  | .wakeup p task tsc => do
      let sched ← c.sched.vcpuWakeup cfg p task tsc
      .ok { c with sched := sched, clock := tsc.update.first }
  | .jobWakeup p job T tsc => do
      let sched ← c.sched.iovcpuJobWakeup cfg p job T tsc
      .ok { c with sched := sched, clock := tsc.update.first }
  | .schedule p tsc => do
      let sched ← c.sched.vcpuSchedule cfg p tsc
      .ok ⟨sched, tsc.acntBegin, charge c p tsc.tcur⟩
  | .bind task cpu =>
      .ok { c with sched := { c.sched with binding := update c.sched.binding task cpu } }
  | .request v T =>
      .ok { c with sched := c.sched.setServer v (cfg.setPeriod (c.sched.servers v) T) }

def WakeupForward (clock : Nat) (tsc : WakeupTsc) : Prop :=
  clock ≤ tsc.unblock.first ∧ tsc.unblock.first ≤ tsc.unblock.second ∧
    tsc.unblock.second ≤ tsc.now ∧ tsc.now ≤ tsc.update.first

/-- The readings of a call of `vcpu_schedule` are in order, and do not overflow. -/
structure ScheduleForward (clock : Nat) (tsc : ScheduleTsc n) : Prop where
  tcur : clock ≤ tsc.tcur ∧ tsc.tcur ≤ tsc.endTimeslice.first
  endTimeslice : tsc.endTimeslice.first ≤ tsc.endTimeslice.second ∧
    tsc.endTimeslice.second ≤ tsc.endTimeslice.third
  update : ∀ v, tsc.endTimeslice.third ≤ (tsc.update v).first ∧ (tsc.update v).first ≤ tsc.acntBegin
  acntBegin : tsc.endTimeslice.third ≤ tsc.acntBegin
  fits : tsc.tcur < 2 ^ 64

/-- The clock does not go back, a task keeps its binding while it is on a runqueue,
and requests are for IO VCPUs. -/
def Forward (c : Clocked σ τ n) : Event τ n → Prop
  | .wakeup _ _ tsc => WakeupForward c.clock tsc
  | .jobWakeup _ _ _ tsc => WakeupForward c.clock tsc
  | .schedule _ tsc => ScheduleForward c.clock tsc
  | .bind task _ => ∀ v, task ∉ (board c.sched.toLinks).tasks v
  | .request v _ => cfg.type v = .io

end Run

structure Hosts (cfg : Config σ τ n) (v : Fin n) (c : Clocked σ τ n) (h : Hosted σ) : Prop where
  server : c.sched.servers v = h.server
  runnable : (c.sched.vcpus v).runnable = h.runnable
  running : (c.sched.vcpus v).running = h.running
  tprev : h.running = true → c.sched.pcpuTprev (cfg.cpu v) = h.tprev ∧ h.tprev ≤ h.clock
  clock : h.clock ≤ c.clock
  charges : c.charges v = h.charges

/-- The VCPU `v`, which was `start` at first, has come to its state in `c` by a run of its own. -/
def Tracked (cfg : Config σ τ n) (v : Fin n) (start : Hosted σ) (c : Clocked σ τ n) : Prop :=
  ∃ h, Reaches (vcpuStep cfg v) (VcpuForward cfg v) start h ∧ Hosts cfg v c h

/-- The VCPU at the end of its timeslice, when the queue is not yet scanned. -/
structure Stopped (cfg : Config σ τ n) (v : Fin n) (c : Clocked σ τ n) (tsc : ScheduleTsc n)
    (servers : Fin n → σ) (h : Hosted σ) : Prop where
  server : servers v = h.server
  runnable : (c.sched.vcpus v).runnable = h.runnable
  running : h.running = false
  clock : h.clock ≤ tsc.endTimeslice.third
  charges : charge c (cfg.cpu v) tsc.tcur v = h.charges

section Steps

variable [DecidableEq τ] [Fintype τ] {cfg : Config σ τ n} {v : Fin n} {c : Clocked σ τ n}
  {h start : Hosted σ} {s' : Scheduler σ τ n} {p : Nat}

theorem wakeup_tracked {task : τ} {tsc : WakeupTsc} (hinv : Inv cfg c.sched)
    (htracked : Tracked cfg v start c) (hfwd : WakeupForward c.clock tsc)
    (hstep : c.sched.vcpuWakeup cfg p task tsc = .ok s') :
    Tracked cfg v start { c with sched := s', clock := tsc.update.first } := by
  obtain ⟨hsound, hflags⟩ := hinv
  obtain ⟨h, hreached, hhosts⟩ := htracked
  obtain ⟨u, hwoken, hrenew⟩ := vcpuWakeup_refines hsound hstep
  have hflags' := hwoken.flagged hflags
  have hrun : (s'.vcpus v).running = h.running := by
    rw [← hhosts.running, Bool.eq_iff_iff, hflags'.running, hflags.running]
    rfl
  have hclock := hhosts.clock
  obtain ⟨hfirst, hsecond, hnow, hlast⟩ := hfwd
  by_cases hv : v = u
  · subst hv
    obtain ⟨server, hunblock, hupdate⟩ := hrenew.woken
    rw [hhosts.runnable, hhosts.running, hhosts.server] at hunblock
    have hwake : vcpuStep cfg v h (.host (.wakeup tsc.unblock tsc.now tsc.update)) =
        .ok { h with server := s'.servers v, runnable := true, clock := tsc.update.first } := by
      rw [vcpuStep, Hosted.step, Hosted.wakeup, hunblock, ok_bind, hupdate, ok_bind]
    refine ⟨_, hreached.tail ?_ hwake, rfl, ?_, hrun, ?_, le_rfl, hhosts.charges⟩
    · exact clockForward_wakeup.mpr ⟨hclock.trans hfirst, hsecond, hnow, hlast⟩
    · rw [hflags'.runnable]
      exact List.ne_nil_of_mem (mem_wake_tasks.mpr (.inr ⟨rfl, rfl⟩))
    · intro hcur
      obtain ⟨htprev, hle⟩ := hhosts.tprev hcur
      rw [hwoken.tprev]
      exact ⟨htprev, by dsimp only; omega⟩
  · refine ⟨h, hreached, ?_, ?_, hrun, ?_, ?_, hhosts.charges⟩
    · rw [hrenew.other v hv]
      exact hhosts.server
    · rw [← hhosts.runnable, Bool.eq_iff_iff, hflags'.runnable, hflags.runnable]
      simp [Board.wake, hv]
    · rw [hwoken.tprev]
      exact hhosts.tprev
    · dsimp only
      omega

theorem u64_sub {x y : Nat} (hle : y ≤ x) (hfits : x < 2 ^ 64) : u64 (x - y) = x - y := by
  unfold u64
  omega

omit [DecidableEq τ] [Fintype τ] in
theorem charge_other {tcur : Nat} (hcurrent : c.sched.vcpuCurrent p ≠ some v) :
    charge c p tcur v = c.charges v := by
  unfold charge
  cases hcur : c.sched.vcpuCurrent p with
  | none => rfl
  | some u => exact update_of_ne (fun heq : v = u => hcurrent (heq ▸ hcur)) _ _

variable {tsc : ScheduleTsc n} {servers : Fin n → σ}

omit [DecidableEq τ] in
theorem endTimeslice_hosts (hinv : Inv cfg c.sched) (hhosts : Hosts cfg v c h)
    (hfwd : ScheduleForward c.clock tsc) (hcharge : Charged cfg c.sched (cfg.cpu v) tsc servers) :
    ∃ h1, h.endTimeslice (cfg.hooks v) tsc.tcur tsc.endTimeslice = .ok h1 ∧
      Stopped cfg v c tsc servers h1 := by
  obtain ⟨hsound, hflags⟩ := hinv
  have hclock := hhosts.clock
  have htcur := hfwd.tcur
  have hthird := hfwd.endTimeslice
  have hcurrent := hflags.running v
  rw [hhosts.running, ← hsound.current] at hcurrent
  unfold Hosted.endTimeslice
  cases hrun : h.running with
  | true =>
    obtain ⟨htprev, hle⟩ := hhosts.tprev hrun
    have hcur := hcurrent.mp hrun
    have hend := hcharge.current v hcur
    rw [htprev, u64_sub (by omega) hfwd.fits, hhosts.server, hhosts.runnable] at hend
    rw [if_pos rfl, hend, ok_bind]
    refine ⟨_, rfl, rfl, hhosts.runnable, rfl, le_rfl, ?_⟩
    simp [charge, hcur, htprev, hhosts.charges]
  | false =>
    have hcur : c.sched.vcpuCurrent (cfg.cpu v) ≠ some v := by
      rw [Ne, ← hcurrent, hrun]
      exact Bool.false_ne_true
    refine ⟨_, rfl, ?_, hhosts.runnable, rfl, ?_, (charge_other hcur).trans hhosts.charges⟩
    · rw [hcharge.other v hcur]
      exact hhosts.server
    · dsimp only
      omega

theorem scan_hosts {b : Board τ (Fin n) Nat} {selected : Option τ} (hinv : Inv cfg c.sched)
    (hfwd : ScheduleForward c.clock tsc)
    (hsched : Scheduled cfg c.sched s' (board c.sched.toLinks) b (cfg.cpu v) tsc selected)
    (hfresh : Refreshed cfg tsc servers s'.servers ((board c.sched.toLinks).queue (cfg.cpu v))
      (b.current (cfg.cpu v))) (hstop : Stopped cfg v c tsc servers h) :
    ∃ scan h', h.scan (cfg.hooks v) tsc.tcur scan (tsc.update v) = .ok h' ∧
      Hosts cfg v ⟨s', tsc.acntBegin, charge c (cfg.cpu v) tsc.tcur⟩ h' := by
  obtain ⟨hsound, hflags⟩ := hinv
  have hflags' := hsched.flagged hflags
  have hupdate := hfwd.update v
  have hready := hflags.runnable v
  rw [hstop.runnable] at hready
  by_cases hchosen : b.current (cfg.cpu v) = some v
  · obtain ⟨hbudget, hupdated⟩ := hfresh.chosen v hchosen
    rw [hstop.server] at hupdated
    obtain ⟨t, -, ht, -, -⟩ := schedule_current hsound.consistent hsched.rule hchosen
    have hon := hready.mpr (List.ne_nil_of_mem ht)
    refine ⟨.choose (s'.vcpus v).runnable, { h with
      server := s'.servers v, clock := (tsc.update v).first, running := true
      runnable := (s'.vcpus v).runnable, tprev := tsc.tcur
      granted := (cfg.hooks v).budget (s'.servers v) }, ?_, rfl, rfl, ?_, ?_, hupdate.2,
      hstop.charges⟩
    · unfold Hosted.scan
      simp only [hon, if_true, hupdated, ok_bind, if_pos hbudget]
    · exact (hflags'.running v).mpr hchosen
    · have htcur := hfwd.tcur
      have hthird := hfwd.endTimeslice
      rw [hsched.tprev, update_self]
      exact fun _ => ⟨rfl, by dsimp only; omega⟩
  · have hoff : (s'.vcpus v).running = h.running := by
      rw [hstop.running, Bool.eq_false_iff, Ne, hflags'.running]
      exact hchosen
    have htasks : (s'.vcpus v).runnable = h.runnable := by
      rw [Bool.eq_iff_iff, hflags'.runnable, hready, schedule_tasks_other hsched.rule hchosen]
    have hidle : h.running ≠ true := by simp [hstop.running]
    by_cases hsame : s'.servers v = servers v
    · refine ⟨.skip, h, ?_, hsame.trans hstop.server, htasks, hoff, fun hrun => absurd hrun hidle,
        hstop.clock.trans hfwd.acntBegin, hstop.charges⟩
      unfold Hosted.scan
      split <;> rfl
    · have hqueued := not_imp_comm.mp (hfresh.other v) hsame
      have hon := hready.mpr ((hsound.consistent.queued _ v).mp hqueued).2
      have hupdated := (hfresh.queued v).resolve_left hsame
      rw [hstop.server] at hupdated
      refine ⟨.refresh, { h with server := s'.servers v, clock := (tsc.update v).first }, ?_, rfl,
        htasks, hoff, fun hrun => absurd hrun hidle, hupdate.2, hstop.charges⟩
      unfold Hosted.scan
      simp only [hon, if_true, hupdated, ok_bind]

theorem schedule_elsewhere (hinv : Inv cfg c.sched) (hhosts : Hosts cfg v c h)
    (hfwd : ScheduleForward c.clock tsc) (hp : cfg.cpu v ≠ p)
    (hstep : c.sched.vcpuSchedule cfg p tsc = .ok s') :
    Hosts cfg v ⟨s', tsc.acntBegin, charge c p tsc.tcur⟩ h := by
  obtain ⟨hsound, hflags⟩ := hinv
  obtain ⟨b, selected, hsched⟩ := vcpuSchedule_refines hsound hstep
  obtain ⟨servers, hcharge, hfresh⟩ := hsched.budgets
  have hflags' := hsched.flagged hflags
  have hcurrent : c.sched.vcpuCurrent p ≠ some v := by
    rw [hsound.current]
    exact fun hcur => hp (hsound.consistent.active p v hcur).1
  have hchosen : b.current p ≠ some v :=
    fun hcur => hp (hsched.sound.consistent.active p v hcur).1
  have hqueue : v ∉ (board c.sched.toLinks).queue p :=
    fun hmem => hp ((hsound.consistent.queued p v).mp hmem).1
  refine ⟨?_, ?_, ?_, ?_, ?_, (charge_other hcurrent).trans hhosts.charges⟩
  · rw [hfresh.other v hqueue, hcharge.other v hcurrent]
    exact hhosts.server
  · rw [← hhosts.runnable, Bool.eq_iff_iff, hflags'.runnable, hflags.runnable,
      schedule_tasks_other hsched.rule hchosen]
  · rw [← hhosts.running, Bool.eq_iff_iff, hflags'.running, hflags.running,
      schedule_current_other hsched.rule hp]
  · rw [hsched.tprev, update_of_ne hp]
    exact hhosts.tprev
  · have hclock := hhosts.clock
    have htcur := hfwd.tcur
    have hthird := hfwd.endTimeslice
    have hlast := hfwd.acntBegin
    dsimp only
    omega

theorem schedule_tracked (hinv : Inv cfg c.sched) (htracked : Tracked cfg v start c)
    (hfwd : ScheduleForward c.clock tsc) (hstep : c.sched.vcpuSchedule cfg p tsc = .ok s') :
    Tracked cfg v start ⟨s', tsc.acntBegin, charge c p tsc.tcur⟩ := by
  obtain ⟨h, hreached, hhosts⟩ := htracked
  by_cases hp : cfg.cpu v = p
  · subst hp
    obtain ⟨b, selected, hsched⟩ := vcpuSchedule_refines hinv.1 hstep
    obtain ⟨servers, hcharge, hfresh⟩ := hsched.budgets
    obtain ⟨h1, hend, hstop⟩ := endTimeslice_hosts hinv hhosts hfwd hcharge
    obtain ⟨scan, h', hscan, hhosts'⟩ := scan_hosts hinv hfwd hsched hfresh hstop
    have hpass : vcpuStep cfg v h
        (.host (.schedule tsc.tcur tsc.endTimeslice scan (tsc.update v))) = .ok h' := by
      rw [vcpuStep, Hosted.step, hend, ok_bind, hscan]
    refine ⟨h', hreached.tail ?_ hpass, hhosts'⟩
    exact clockForward_schedule.mpr ⟨hhosts.clock.trans hfwd.tcur.1, hfwd.tcur.2,
      hfwd.endTimeslice.1, hfwd.endTimeslice.2, (hfwd.update v).1⟩
  · exact ⟨h, hreached, schedule_elsewhere hinv hhosts hfwd hp hstep⟩

omit [DecidableEq τ] [Fintype τ] in
theorem assign_tracked {u : Fin n} {T : Nat} (hu : cfg.type u = .io)
    (htracked : Tracked cfg v start c) : Tracked cfg v start
      { c with sched := c.sched.setServer u (cfg.setPeriod (c.sched.servers u) T) } := by
  obtain ⟨h, hreached, hhosts⟩ := htracked
  by_cases hv : v = u
  · subst hv
    refine ⟨_, hreached.tail (e := .request T) hu rfl, { hhosts with server := ?_ }⟩
    simp [Scheduler.setServer, hhosts.server]
  · refine ⟨h, hreached, { hhosts with server := ?_ }⟩
    simp [Scheduler.setServer, hv, hhosts.server]

variable {c' : Clocked σ τ n} {event : Event τ n}

theorem step_tracked (hinv : Inv cfg c.sched) (htracked : Tracked cfg v start c)
    (hfwd : Forward cfg c event) (hstep : step cfg c event = .ok c') :
    Tracked cfg v start c' := by
  cases event with
  | wakeup p task tsc =>
    obtain ⟨s', hwake, heq⟩ := bind_eq_ok.mp hstep
    cases heq
    exact wakeup_tracked hinv htracked hfwd hwake
  | jobWakeup p job T tsc =>
    obtain ⟨s', hjob, heq⟩ := bind_eq_ok.mp hstep
    cases heq
    obtain ⟨u, -, hwake⟩ := bind_eq_ok.mp hjob
    dsimp only at hwake
    split at hwake
    · rename_i hassign
      have hassigned := assign_tracked (T := T) hassign.1 htracked
      have hwoken := wakeup_tracked (by exact hinv) hassigned hfwd hwake
      exact hwoken
    · exact wakeup_tracked hinv htracked hfwd hwake
  | schedule p tsc =>
    obtain ⟨s', hsched, heq⟩ := bind_eq_ok.mp hstep
    cases heq
    exact schedule_tracked hinv htracked hfwd hsched
  | bind task cpu =>
    cases hstep
    obtain ⟨h, hreached, hhosts⟩ := htracked
    exact ⟨h, hreached, { hhosts with }⟩
  | request u T =>
    cases hstep
    exact assign_tracked hfwd htracked

theorem inv_next (hinv : Inv cfg c.sched) (hfwd : Forward cfg c event)
    (hstep : step cfg c event = .ok c') : Inv cfg c'.sched := by
  cases event with
  | wakeup p task tsc =>
    obtain ⟨s', hwake, heq⟩ := bind_eq_ok.mp hstep
    cases heq
    have hevent : RunInvariants.step cfg c.sched (.wakeup p task tsc) = .ok s' := hwake
    exact inv_step hinv (by trivial) hevent
  | jobWakeup p job T tsc =>
    obtain ⟨s', hjob, heq⟩ := bind_eq_ok.mp hstep
    cases heq
    obtain ⟨servers, hwake⟩ := iovcpuJobWakeup_cases hjob
    have hevent : RunInvariants.step cfg { c.sched with servers := servers }
      (.wakeup p job tsc) = .ok s' := hwake
    exact inv_step (by exact hinv) (by trivial) hevent
  | schedule p tsc =>
    obtain ⟨s', hsched, heq⟩ := bind_eq_ok.mp hstep
    cases heq
    have hevent : RunInvariants.step cfg c.sched (.schedule p tsc) = .ok s' := hsched
    exact inv_step hinv (by trivial) hevent
  | bind task cpu =>
    cases hstep
    have hkept : BindingKept c.sched (.bind task cpu) := hfwd
    exact inv_step hinv hkept rfl
  | request u T =>
    cases hstep
    exact hinv

end Steps

theorem tracked_reached [DecidableEq τ] [Fintype τ] {cfg : Config σ τ n} {v : Fin n}
    {start c : Clocked σ τ n} (hstart : Initial start.sched) (hcharges : start.charges v = [])
    (hreach : Reaches (step cfg) (Forward cfg) start c) :
    Tracked cfg v (Hosted.initial (start.sched.servers v) start.clock) c := by
  have hfirst : Hosts cfg v start (Hosted.initial (start.sched.servers v) start.clock) := by
    refine ⟨rfl, ?_, ?_, ?_, le_rfl, hcharges⟩
    · rw [hstart.vcpus]
      rfl
    · rw [hstart.vcpus]
      rfl
    · exact fun hrunning => absurd hrunning Bool.false_ne_true
  apply And.right (a := Inv cfg c.sched)
  apply hreach.invariant (fun c => Inv cfg c.sched ∧ Tracked cfg v _ c)
  · exact ⟨inv_initial hstart, _, .refl, hfirst⟩
  · rintro c c' event ⟨hinv, htracked⟩ hfwd hstep
    exact ⟨inv_next hinv hfwd hstep, step_tracked hinv htracked hfwd hstep⟩

end Quest.Sched.Projection
