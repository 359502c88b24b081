import Quest.Sched.Pibs

/-! However its period changes, an I/O VCPU is not charged more than its share of the time, up to
the budget of one period and rounding errors. -/
namespace Quest.Sched.Bandwidth

open Quest.Sched.Hooks
open Quest.Sched.Pibs
open Quest.Sched.Ledger (Entry)

/-- Every timeslice ends within the budget with which it began, and every period
is positive and at most `Tmax`. -/
def InBudget (Tmax : Nat) (h : Hosted IoVcpu) (event : IoEvent) : Prop :=
  IoClockForward h event ∧
    match event with
    | .host (.wakeup _ _ _) => True
    | .host (.schedule tcur _ _ _) => h.running = true → tcur - h.tprev ≤ h.granted
    | .jobWakeup T _ _ _ => 0 < T ∧ T ≤ Tmax
    | .atapiRequest T => 0 < T ∧ T ≤ Tmax

instance (Tmax : Nat) (h : Hosted IoVcpu) : (event : IoEvent) → Decidable (InBudget Tmax h event)
  | .host (.wakeup _ _ _) => inferInstanceAs (Decidable (_ ∧ True))
  | .host (.schedule _ _ _ _) => inferInstanceAs (Decidable (_ ∧ (_ → _)))
  | .jobWakeup _ _ _ _ => inferInstanceAs (Decidable (_ ∧ _ ∧ _))
  | .atapiRequest _ => inferInstanceAs (Decidable (_ ∧ _ ∧ _))

/-- A VCPU that has budget is eligible, and one that waits for a replenishment has none. -/
structure Served (Unum Uden Cmax now : Nat) (v : IoVcpu) : Prop where
  num : v.Unum = Unum
  den : v.Uden = Uden
  period : v.T * Unum / Uden ≤ Cmax
  cap : v.usage + v.b ≤ Cmax
  reserve : v.r.b ≤ Cmax
  pending : v.r.t ≠ 0 → v.b = 0 ∧ v.usage = 0
  awaited : v.r.t ≠ 0 → v.r.t = v.e ∨ v.e ≤ now
  eligible : 0 < v.b → v.e ≤ now

structure Idle (v : IoVcpu) : Prop where
  unused : v.usage = 0
  unbudgeted : v.budgeted = false
  unset : v.r.t = 0 → v.e = 0

variable {Unum Uden Cmax now tcur : Nat} {v : IoVcpu}

section

variable (h : Served Unum Uden Cmax now v)
include h

theorem Served.later (hle : now ≤ tcur) :
    Served Unum Uden Cmax tcur v where
  __ := h
  awaited ht := (h.awaited ht).imp_right fun he => he.trans hle
  eligible hb := (h.eligible hb).trans hle

theorem served_update (hle : now ≤ tcur) :
    Served Unum Uden Cmax tcur (ioVcpuUpdateReplenishments v tcur) := by
  unfold ioVcpuUpdateReplenishments
  split
  · rename_i hdue
    have hunused := (h.pending hdue.1).2
    have hreserve := h.reserve
    have hawait := h.awaited hdue.1
    refine ⟨h.num, h.den, h.period, ?_, h.reserve, nofun, nofun, fun _ => ?_⟩
    · dsimp only
      omega
    · dsimp only
      omega
  · exact h.later hle

theorem served_endTimeslice (hset : v.r.t = 0)
    (runnable : Bool) (tdelta : Nat) :
    Served Unum Uden Cmax now (ioVcpuEndTimeslice v runnable tdelta) := by
  rw [ioVcpuEndTimeslice_eq]
  split
  · have hcmax : v.cmax ≤ Cmax := by
      rw [IoVcpu.cmax, h.num, h.den]
      exact h.period
    simp only [fold, hset, if_true]
    exact ⟨h.num, h.den, h.period, Nat.zero_le _, hcmax, fun _ => ⟨rfl, rfl⟩, fun _ => .inl rfl,
      nofun⟩
  · have hcap := h.cap
    refine ⟨h.num, h.den, h.period, ?_, h.reserve, fun ht => absurd hset ht,
      fun ht => absurd hset ht, fun _ => h.eligible (by omega)⟩
    dsimp only
    omega

end

theorem idle_endTimeslice (hset : v.r.t = 0) (tdelta : Nat) :
    Idle (ioVcpuEndTimeslice v false tdelta) := by
  rw [ioVcpuEndTimeslice_eq, if_pos (.inl rfl)]
  simp only [fold, hset, if_true]
  exact ⟨rfl, rfl, id⟩

theorem served_unblock (h : Served Unum Uden Cmax now v) (hidle : Idle v) {woken : Nat}
    (hwoken : now ≤ woken) (hle : woken ≤ tcur) :
    Served Unum Uden Cmax tcur (ioVcpuUpdateReplenishments (ioVcpuUnblock v woken) tcur) := by
  have hcmax : v.cmax ≤ Cmax := by
    rw [IoVcpu.cmax, h.num, h.den]
    exact h.period
  have hunused := hidle.unused
  have hcap := h.cap
  by_cases hset : v.r.t = 0
  · have hzero := hidle.unset hset
    have he : (if v.e < woken then woken else v.e) = woken := by
      split <;> omega
    simp only [ioVcpuUnblock, hset, hidle.unbudgeted, true_and, he, if_true, Bool.false_eq_true,
      if_false]
    by_cases hstart : woken = 0
    · rw [update_unset hstart]
      exact ⟨h.num, h.den, h.period, hcap, hcmax, fun ht => absurd hstart ht,
        fun ht => absurd hstart ht, fun _ => hle⟩
    · rw [update_due hstart hle]
      refine ⟨h.num, h.den, h.period, ?_, hcmax, fun ht => absurd rfl ht, fun ht => absurd rfl ht,
        fun _ => hle⟩
      dsimp only
      omega
  · have hpend := h.pending hset
    have hserved : Served Unum Uden Cmax woken (ioVcpuUnblock v woken) := by
      have hawait := h.awaited hset
      simp only [ioVcpuUnblock, hset, if_false]
      refine ⟨h.num, h.den, h.period, hcap, hcmax, fun _ => hpend, fun _ => ?_, fun hb => ?_⟩
      · dsimp only
        split <;> omega
      · dsimp only at hb
        omega
    exact served_update hserved hle

/-- What has been charged is paid for by the eligibility time, except for what has not been folded
yet. -/
structure Paid (Unum Uden Cmax x e0 : Nat) (charges : List (Nat × Nat)) (v : IoVcpu) : Prop where
  begun : e0 ≤ v.e
  paid : Uden * charged charges ≤ Unum * (v.e - e0) + Unum * v.folds + Uden * v.usage
  bounded : Uden * chargedUpTo x charges ≤ Unum * (x - e0) + Uden * Cmax + Unum * v.folds

variable {x e0 : Nat} {charges : List (Nat × Nat)}

theorem paid_update (h : Paid Unum Uden Cmax x e0 charges v) (tcur : Nat) :
    Paid Unum Uden Cmax x e0 charges (ioVcpuUpdateReplenishments v tcur) := by
  obtain ⟨b, r, hupdate⟩ := update_frame v tcur
  rw [hupdate]
  exact { h with }

theorem paid_unblock (h : Paid Unum Uden Cmax x e0 charges v) (woken : Nat) :
    Paid Unum Uden Cmax x e0 charges (ioVcpuUnblock v woken) := by
  have hlater : v.e ≤ (ioVcpuUnblock v woken).e := eligibility_unblock v woken
  refine ⟨h.begun.trans hlater, h.paid.trans ?_, h.bounded⟩
  apply Nat.add_le_add_right
  apply Nat.add_le_add_right
  apply Nat.mul_le_mul_left
  exact Nat.sub_le_sub_right hlater e0

theorem paid_first (hunbudgeted : v.budgeted = false) (woken : Nat) :
    Paid Unum Uden Cmax x woken [] (ioVcpuUnblock v woken) := by
  refine ⟨?_, Nat.zero_le _, Nat.zero_le _⟩
  simp only [ioVcpuUnblock, hunbudgeted, true_and]
  split <;> omega

theorem charge_bounded (hserved : Served Unum Uden Cmax now v)
    (h : Paid Unum Uden Cmax x e0 charges v) {tprev : Nat} (he : v.e ≤ tprev)
    (hslice : tcur - tprev ≤ v.b) :
    Uden * chargedUpTo x ((tprev, tcur) :: charges) ≤
      Unum * (x - e0) + Uden * Cmax + Unum * v.folds := by
  by_cases hx : x ≤ tprev
  · have hnone : min tcur x - tprev = 0 := by omega
    rw [chargedUpTo_cons, hnone, zero_add]
    exact h.bounded
  · have hcap : v.usage + (tcur - tprev) ≤ Cmax := by
      have := hserved.cap
      omega
    calc
      Uden * chargedUpTo x ((tprev, tcur) :: charges)
        ≤ Uden * (tcur - tprev + charged charges) :=
          Nat.mul_le_mul_left Uden (chargedUpTo_le x ((tprev, tcur) :: charges))
      _ ≤ Unum * (v.e - e0) + Unum * v.folds + Uden * (v.usage + (tcur - tprev)) := by
          have hpaid := h.paid
          rw [mul_add, mul_add]
          omega
      _ ≤ Unum * (x - e0) + Unum * v.folds + Uden * Cmax := by
          apply Nat.add_le_add _ (Nat.mul_le_mul_left Uden hcap)
          apply Nat.add_le_add_right
          apply Nat.mul_le_mul_left
          omega
      _ = Unum * (x - e0) + Uden * Cmax + Unum * v.folds := add_right_comm _ _ _

theorem paid_endTimeslice (hnum : 0 < Unum) (hserved : Served Unum Uden Cmax now v)
    (h : Paid Unum Uden Cmax x e0 charges v) (runnable : Bool) {tprev : Nat} (he : v.e ≤ tprev)
    (hslice : tcur - tprev ≤ v.b) :
    Paid Unum Uden Cmax x e0 ((tprev, tcur) :: charges)
      (ioVcpuEndTimeslice v runnable (tcur - tprev)) := by
  have hpaid := h.paid
  have hbegun := h.begun
  have hbounded := charge_bounded hserved h he hslice
  rw [ioVcpuEndTimeslice_eq]
  split
  · simp only [fold, hserved.num, hserved.den]
    have hround : Uden * v.usage + Uden * (tcur - tprev) ≤
        Unum * ((v.usage + (tcur - tprev)) * Uden / Unum) + Unum := by
      have hdiv := Nat.div_add_mod ((v.usage + (tcur - tprev)) * Uden) Unum
      have hmod := Nat.mod_lt ((v.usage + (tcur - tprev)) * Uden) hnum
      rw [← mul_add, mul_comm Uden]
      omega
    refine ⟨hbegun.trans (Nat.le_add_right _ _), ?_, hbounded.trans ?_⟩
    · dsimp only
      rw [charged_cons, Nat.sub_add_comm hbegun, mul_add, mul_add, mul_add, mul_one,
        mul_zero]
      omega
    · apply Nat.add_le_add_left
      apply Nat.mul_le_mul_left
      exact Nat.le_succ v.folds
  · refine ⟨hbegun, ?_, hbounded⟩
    dsimp only
    rw [charged_cons, mul_add, mul_add]
    omega

structure Paced (Unum Uden Cmax x now : Nat) (h : Hosted IoVcpu) : Prop where
  served : Served Unum Uden Cmax now h.server
  current : h.running = true →
    h.server.r.t = 0 ∧ h.server.e ≤ h.tprev ∧ h.tprev ≤ now ∧ h.granted = h.server.b
  idle : h.runnable = false → h.running = false → Idle h.server
  fresh : h.server.firstUnblock = none →
    h.charges = [] ∧ h.runnable = false ∧ h.running = false
  paid : ∀ e0 ∈ h.server.firstUnblock, Paid Unum Uden Cmax x e0 h.charges h.server

variable {h h' : Hosted IoVcpu}

section

variable (hpaced : Paced Unum Uden Cmax x now h)
include hpaced

theorem Paced.later (hle : now ≤ tcur) :
    Paced Unum Uden Cmax x tcur h where
  served := hpaced.served.later hle
  current hrun := by
    obtain ⟨hset, he, htprev, hgrant⟩ := hpaced.current hrun
    exact ⟨hset, he, htprev.trans hle, hgrant⟩
  __ := hpaced

theorem paced_setPeriod {T : Nat}
    (hT : T * Unum / Uden ≤ Cmax) : Paced Unum Uden Cmax x now (setPeriod h T) where
  served := { hpaced.served with period := hT }
  __ := hpaced
  idle hready hrun := { hpaced.idle hready hrun with }
  paid e0 he0 := { hpaced.paid e0 he0 with }

theorem paced_wakeup {unblock update : Tsc}
    (hunblock : now ≤ unblock.first) (hle : unblock.first ≤ tcur)
    (hstep : h.wakeup ioServer.hooks unblock tcur update = .ok h') :
    Paced Unum Uden Cmax x tcur h' := by
  obtain ⟨hready, hrun, rfl⟩ | ⟨hbusy, rfl⟩ := wakeup_cases hstep
  · have hidle := hpaced.idle hready hrun
    have hfirst : (ioVcpuUpdateReplenishments (ioVcpuUnblock h.server unblock.first)
        tcur).firstUnblock = h.server.firstUnblock.or (some unblock.first) := by
      obtain ⟨b, r, hupdate⟩ := update_frame (ioVcpuUnblock h.server unblock.first) tcur
      rw [hupdate]
      rfl
    refine ⟨served_unblock hpaced.served hidle hunblock hle, ?_, nofun, ?_, ?_⟩
    · simp [hrun]
    · dsimp only [ioServer]
      rw [hfirst]
      simp
    · dsimp only [ioServer]
      intro e0 he0
      apply paid_update
      rw [hfirst] at he0
      cases hwoken : h.server.firstUnblock with
      | none =>
        rw [hwoken, Option.none_or, Option.mem_some_iff] at he0
        rw [(hpaced.fresh hwoken).1, ← he0]
        exact paid_first hidle.unbudgeted _
      | some first =>
        rw [hwoken, Option.some_or, Option.mem_some_iff] at he0
        exact paid_unblock (hpaced.paid e0 (by rw [hwoken, he0]; rfl)) _
  · have hlater : now ≤ tcur := hunblock.trans hle
    obtain ⟨b, r, hupdate⟩ := update_frame h.server tcur
    have hfirst : (ioVcpuUpdateReplenishments h.server tcur).firstUnblock =
        h.server.firstUnblock := by rw [hupdate]
    refine ⟨served_update hpaced.served hlater, ?_, nofun, ?_, ?_⟩
    · intro hrun
      obtain ⟨hset, he, htprev, hgrant⟩ := hpaced.current hrun
      dsimp only [ioServer]
      rw [update_unset hset]
      exact ⟨hset, he, htprev.trans hlater, hgrant⟩
    · dsimp only [ioServer]
      rw [hfirst]
      intro hnone
      obtain ⟨-, hready, hrun⟩ := hpaced.fresh hnone
      rw [Hosted.busy, hready, hrun] at hbusy
      cases hbusy
    · dsimp only [ioServer]
      intro e0 he0
      rw [hfirst] at he0
      exact paid_update (hpaced.paid e0 he0) tcur

end

theorem paced_endTimeslice (hnum : 0 < Unum) (hpaced : Paced Unum Uden Cmax x now h) {tsc : Tsc}
    (hle : now ≤ tcur) (hslice : h.running = true → tcur - h.tprev ≤ h.granted)
    (hstep : h.endTimeslice ioServer.hooks tcur tsc = .ok h') :
    Paced Unum Uden Cmax x tcur h' ∧ h'.running = false := by
  obtain ⟨hrun, rfl⟩ | ⟨hrun, rfl⟩ := endTimeslice_cases hstep
  · obtain ⟨hset, he, htprev, hgrant⟩ := hpaced.current hrun
    have hslice := hslice hrun
    rw [hgrant] at hslice
    have hfirst : (ioVcpuEndTimeslice h.server h.runnable (tcur - h.tprev)).firstUnblock =
        h.server.firstUnblock := by
      rw [ioVcpuEndTimeslice_eq]
      split <;> rfl
    refine ⟨⟨(served_endTimeslice hpaced.served hset _ _).later hle, nofun, ?_, ?_, ?_⟩, rfl⟩
    · intro hready _
      rw [hready]
      exact idle_endTimeslice hset _
    · dsimp only [ioServer]
      rw [hfirst]
      intro hnone
      rw [(hpaced.fresh hnone).2.2] at hrun
      cases hrun
    · dsimp only [ioServer]
      intro e0 he0
      rw [hfirst] at he0
      exact paid_endTimeslice hnum hpaced.served (hpaced.paid e0 he0) _ he hslice
  · have hlater := hpaced.later hle
    exact ⟨{ hlater with }, hrun⟩

theorem paced_scan (hpaced : Paced Unum Uden Cmax x tcur h) (hrun : h.running = false)
    {scan : Scan} {tsc : Tsc} (hstep : h.scan ioServer.hooks tcur scan tsc = .ok h') :
    Paced Unum Uden Cmax x tcur h' := by
  have hserved := served_update hpaced.served (le_refl tcur)
  have hfirst : (ioVcpuUpdateReplenishments h.server tcur).firstUnblock =
      h.server.firstUnblock := by
    obtain ⟨b, r, hupdate⟩ := update_frame h.server tcur
    rw [hupdate]
  have hpaid : ∀ e0 ∈ (ioVcpuUpdateReplenishments h.server tcur).firstUnblock,
      Paid Unum Uden Cmax x e0 h.charges (ioVcpuUpdateReplenishments h.server tcur) := by
    intro e0 he0
    rw [hfirst] at he0
    exact paid_update (hpaced.paid e0 he0) tcur
  obtain rfl | ⟨hready, rfl⟩ | ⟨-, hready, hbudget, more, rfl⟩ := scan_cases hstep
  · exact hpaced
  · refine ⟨hserved, by simp [hrun], by simp [hready], ?_, hpaid⟩
    intro hnone
    exact hpaced.fresh (hfirst.symm.trans hnone)
  · have hset : (ioVcpuUpdateReplenishments h.server tcur).r.t = 0 := by
      by_contra hpend
      exact hbudget.ne' (hserved.pending hpend).1
    refine ⟨hserved, fun _ => ⟨hset, hserved.eligible hbudget, le_rfl, rfl⟩, nofun, ?_,
      hpaid⟩
    intro hnone
    rw [(hpaced.fresh (hfirst.symm.trans hnone)).2.1] at hready
    cases hready

theorem paced_step (hnum : 0 < Unum) {Tmax : Nat} {event : IoEvent}
    (hpaced : Paced Unum Uden (Tmax * Unum / Uden) x h.clock h) (hevent : InBudget Tmax h event)
    (hstep : ioStep h event = .ok h') :
    Paced Unum Uden (Tmax * Unum / Uden) x h'.clock h' := by
  obtain ⟨hclock, hcall⟩ := hevent
  have hwake {k : Hosted IoVcpu} {unblock update : Tsc} {tcur : Nat}
      (hk : Paced Unum Uden (Tmax * Unum / Uden) x h.clock k)
      (hfwd : ClockForward h (.wakeup unblock tcur update))
      (hcall : k.wakeup ioServer.hooks unblock tcur update = .ok h') :
      Paced Unum Uden (Tmax * Unum / Uden) x h'.clock h' := by
    obtain ⟨hunblock, hsecond, hnow, hupdate⟩ := clockForward_wakeup.mp hfwd
    apply (paced_wakeup hk hunblock (hsecond.trans hnow) hcall).later
    obtain ⟨-, -, rfl⟩ | ⟨-, rfl⟩ := wakeup_cases hcall
    · exact hupdate
    · exact hupdate
  have hperiod {T : Nat} (hT : T ≤ Tmax) : T * Unum / Uden ≤ Tmax * Unum / Uden :=
    Nat.div_le_div_right (Nat.mul_le_mul_right Unum hT)
  cases event with
  | host event =>
    cases event with
    | wakeup unblock now update => exact hwake hpaced hclock hstep
    | schedule tcur endTsc scan update =>
      obtain ⟨h1, hslice, hscan⟩ := bind_eq_ok.mp hstep
      have htcur := (clockForward_schedule.mp hclock).1
      obtain ⟨hpaced1, hrun1⟩ := paced_endTimeslice hnum hpaced htcur hcall hslice
      exact (paced_scan hpaced1 hrun1 hscan).later (schedule_clock hclock hslice hscan)
  | jobWakeup T unblock now update =>
    obtain ⟨T', hjob, hT' | hT'⟩ := iovcpuJobWakeup_eq h T unblock now update
    · rw [ioStep, hjob, hT'.1] at hstep
      exact hwake (paced_setPeriod hpaced (hperiod hcall.2)) hclock hstep
    · rw [ioStep, hjob, hT'.1] at hstep
      exact hwake (paced_setPeriod hpaced hpaced.served.period) hclock hstep
  | atapiRequest T =>
    rw [ioStep] at hstep
    cases hstep
    exact paced_setPeriod hpaced (hperiod hcall.2)

theorem paced_initial (Unum Uden tscUnitFreq Tmax vcpuInitTime : Nat) (hden : 0 < Uden)
    (hT : Uden * tscUnitFreq ≤ Tmax) :
    Paced Unum Uden (Tmax * Unum / Uden) x vcpuInitTime
      (Hosted.initial (ioVcpuInit Unum Uden tscUnitFreq) vcpuInitTime) := by
  have hcap : Unum * tscUnitFreq ≤ Tmax * Unum / Uden := by
    rw [Nat.le_div_iff_mul_le hden, Nat.mul_assoc, Nat.mul_comm tscUnitFreq, Nat.mul_comm Unum]
    exact Nat.mul_le_mul_right Unum hT
  have hperiod : Uden * tscUnitFreq * Unum / Uden ≤ Tmax * Unum / Uden :=
    Nat.div_le_div_right (Nat.mul_le_mul_right Unum hT)
  refine ⟨⟨rfl, rfl, hperiod, ?_, Nat.zero_le _, nofun, nofun, fun _ => Nat.zero_le _⟩, nofun,
    fun _ _ => ⟨rfl, rfl, fun _ => rfl⟩, fun _ => ⟨rfl, rfl, rfl⟩, nofun⟩
  exact (Nat.zero_add _).le.trans hcap

/-- Up to any instant `x`, an I/O VCPU is charged for its share of the time since it was first
woken, the budget of the longest period, and less than one unit of `Unum / Uden` for each
fold.  Its eligibility time never goes back. -/
theorem charged_within_bandwidth (Unum Uden tscUnitFreq Tmax vcpuInitTime : Nat) (hnum : 0 < Unum)
    (hle : Unum ≤ Uden) (hT : Uden * tscUnitFreq ≤ Tmax) (h : Hosted IoVcpu)
    (hreach : Lib.Reach.Reaches ioStep (InBudget Tmax)
      (Hosted.initial (ioVcpuInit Unum Uden tscUnitFreq) vcpuInitTime) h) :
    (∀ e0, h.server.firstUnblock = some e0 → ∀ x, Uden * chargedUpTo x h.charges ≤
        Unum * (x - e0) + Uden * (Tmax * Unum / Uden) + Unum * h.server.folds) ∧
      (h.server.firstUnblock = none → h.charges = []) ∧
      ∀ h', Lib.Reach.Reaches ioStep (InBudget Tmax) h h' → h.server.e ≤ h'.server.e := by
  have hpaced (x : Nat) : Paced Unum Uden (Tmax * Unum / Uden) x h.clock h := by
    refine hreach.invariant (fun h => Paced Unum Uden (Tmax * Unum / Uden) x h.clock h) ?_ ?_
    · exact paced_initial Unum Uden tscUnitFreq Tmax vcpuInitTime (Nat.lt_of_lt_of_le hnum hle) hT
    · intro h h' event hinv hevent hstep
      exact paced_step hnum hinv hevent hstep
  refine ⟨fun e0 he₀ x => ((hpaced x).paid e0 he₀).bounded,
    fun hnone => ((hpaced 0).fresh hnone).1, fun h' hlater => ?_⟩
  refine hlater.invariant (fun k => h.server.e ≤ k.server.e) (Nat.le_refl _) ?_
  intro k k' event hinv _ hstep
  exact hinv.trans (eligibility_step event hstep)

theorem charged_within_bandwidth_one_of_ten :
    ∃ h, Lib.Reach.Reaches ioStep (InBudget 100) (Hosted.initial (ioVcpuInit 1 10 10) 5) h ∧
      h.server.firstUnblock = some 7 ∧ h.charges = [(40, 45), (9, 12)] ∧
      10 * chargedUpTo 45 h.charges ≤ 1 * (45 - 7) + 10 * (100 * 1 / 10) + 1 * h.server.folds := by
  have hrun : (Lib.Reach.replay ioStep (InBudget 100) (Hosted.initial (ioVcpuInit 1 10 10) 5)
      [.host (.wakeup (.at 7) 7 (.at 7)), .host (.schedule 9 (.at 9) (.choose false) (.at 9)),
        .atapiRequest 50, .host (.schedule 12 (.at 12) .skip (.at 12)),
        .jobWakeup 80 (.at 15) 15 (.at 15), .host (.schedule 40 (.at 40) (.choose true) (.at 40)),
        .host (.schedule 45 (.at 45) .refresh (.at 45))]).map
      (fun h => (h.server.firstUnblock, h.charges)) = some (some 7, [(40, 45), (9, 12)]) := by
    decide
  obtain ⟨h, hh, hfacts⟩ := Option.map_eq_some_iff.mp hrun
  rw [Prod.mk.injEq] at hfacts
  have hreach := Lib.Reach.Reaches.refl.replay hh
  have hbound := (charged_within_bandwidth 1 10 10 100 5 (by decide) (by decide) (by decide) h
    hreach).1 7 hfacts.1 45
  exact ⟨h, hreach, hfacts.1, hfacts.2, hbound⟩

end Quest.Sched.Bandwidth
