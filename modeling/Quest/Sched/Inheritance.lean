import Quest.Sched.Pibs

/-! The period that an I/O VCPU inherits.  Lowering it leaves the budget of the longer period in
place, and an ATAPI request overwrites it, where `iovcpu_job_wakeup` takes the smaller one. -/
namespace Quest.Sched.Inheritance

open Quest.Sched.Hooks
open Quest.Sched.Pibs

variable {h h' : Hosted IoVcpu}

theorem host_period {event : HostEvent} (hstep : h.step ioServer.hooks event = .ok h') :
    h'.server.T = h.server.T := by
  have hupdate (v : IoVcpu) (tcur : Nat) : (ioVcpuUpdateReplenishments v tcur).T = v.T := by
    obtain ⟨b, r, hframe⟩ := update_frame v tcur
    rw [hframe]
  cases event with
  | wakeup unblock now update =>
    obtain ⟨-, -, rfl⟩ | ⟨-, rfl⟩ := wakeup_cases hstep
    · exact hupdate _ _
    · exact hupdate _ _
  | schedule tcur endTsc scan update =>
    obtain ⟨h1, hslice, hscan⟩ := bind_eq_ok.mp hstep
    have hfirst : h1.server.T = h.server.T := by
      obtain ⟨-, rfl⟩ | ⟨-, rfl⟩ := endTimeslice_cases hslice
      · dsimp only [ioServer]
        rw [ioVcpuEndTimeslice_eq]
        split <;> rfl
      · rfl
    rw [← hfirst]
    obtain rfl | ⟨-, rfl⟩ | ⟨-, -, -, -, rfl⟩ := scan_cases hscan
    · rfl
    · exact hupdate _ _
    · exact hupdate _ _

section Cap

def Affords (v : IoVcpu) (T : Nat) : Prop :=
  v.b ≤ T * v.Unum / v.Uden ∧ (v.r.t ≠ 0 → v.r.b ≤ T * v.Unum / v.Uden)

instance (v : IoVcpu) (T : Nat) : Decidable (Affords v T) :=
  inferInstanceAs (Decidable (_ ∧ (_ → _)))

/-- A busy VCPU gets a shorter period only if its budget is not too large for
it. -/
def Affordable (h : Hosted IoVcpu) (event : IoEvent) : Prop :=
  IoClockForward h event ∧
    match event with
    | .host _ => True
    | .jobWakeup T _ _ _ => h.busy = true → T < h.server.T → Affords h.server T
    | .atapiRequest T => h.busy = true → T < h.server.T → Affords h.server T

instance (h : Hosted IoVcpu) : (event : IoEvent) → Decidable (Affordable h event)
  | .host _ => inferInstanceAs (Decidable (_ ∧ True))
  | .jobWakeup _ _ _ _ => inferInstanceAs (Decidable (_ ∧ (_ → _ → _)))
  | .atapiRequest _ => inferInstanceAs (Decidable (_ ∧ (_ → _ → _)))

structure Asleep (v : IoVcpu) : Prop where
  unbudgeted : v.budgeted = false
  fresh : v.firstUnblock = none → v.r.t = 0 ∧ v.e = 0
  spent : v.firstUnblock ≠ none → v.b = 0

/-- The budget of a VCPU that has been woken, and the replenishment of a busy one,
are within the cap of the current period. -/
structure Capped (h : Hosted IoVcpu) : Prop where
  clock : 0 < h.clock
  busy : h.busy = true → h.server.firstUnblock ≠ none ∧ Affords h.server h.server.T
  idle : h.busy = false → Asleep h.server

variable {v : IoVcpu}

theorem affords_update {T : Nat} (h : Affords v T) (tcur : Nat) :
    Affords (ioVcpuUpdateReplenishments v tcur) T := by
  unfold ioVcpuUpdateReplenishments
  split
  · rename_i hdue
    exact ⟨h.2 hdue.1, nofun⟩
  · exact h

theorem affords_endTimeslice (h : Affords v v.T) (runnable : Bool) (tdelta : Nat) :
    Affords (ioVcpuEndTimeslice v runnable tdelta) v.T := by
  rw [ioVcpuEndTimeslice_eq]
  split
  · unfold fold
    refine ⟨Nat.zero_le _, fun _ => ?_⟩
    split
    · exact Nat.le_refl _
    · rename_i hset
      exact h.2 hset
  · exact ⟨(Nat.sub_le _ _).trans h.1, h.2⟩

theorem affords_later {T T' : Nat} (h : Affords v T) (hle : T ≤ T') : Affords v T' := by
  have hcap : T * v.Unum / v.Uden ≤ T' * v.Unum / v.Uden :=
    Nat.div_le_div_right (Nat.mul_le_mul_right v.Unum hle)
  exact ⟨h.1.trans hcap, fun hset => (h.2 hset).trans hcap⟩

variable {tcur : Nat}

theorem affords_unblock {woken : Nat} (h : Asleep v) (hwoken : 0 < woken) (hle : woken ≤ tcur) :
    Affords (ioVcpuUpdateReplenishments (ioVcpuUnblock v woken) tcur) v.T := by
  have hreserve : (ioVcpuUnblock v woken).r.b = v.T * v.Unum / v.Uden := by
    simp only [ioVcpuUnblock, h.unbudgeted, Bool.false_eq_true, if_false]
    split <;> rfl
  by_cases hfirst : v.firstUnblock = none
  · obtain ⟨hunset, hzero⟩ := h.fresh hfirst
    have hset : (ioVcpuUnblock v woken).r.t = woken := by
      simp only [ioVcpuUnblock, h.unbudgeted, hunset, hzero, true_and, hwoken, if_true,
        Bool.false_eq_true, if_false]
    rw [update_due (by omega) (by omega)]
    exact ⟨hreserve.le, fun hset => absurd rfl hset⟩
  · apply affords_update
    refine ⟨?_, fun _ => hreserve.le⟩
    have hspent := h.spent hfirst
    dsimp only [ioVcpuUnblock]
    omega

theorem capped_alternate :
    Alternate (fun v => v.firstUnblock ≠ none ∧ Affords v v.T) Asleep where
  update v tcur h := by
    obtain ⟨b, r, hframe⟩ := update_frame v tcur
    have hafter := affords_update h.2 tcur
    rw [hframe] at hafter ⊢
    exact ⟨h.1, hafter⟩
  endTimeslice v runnable tdelta h := by
    have hafter := affords_endTimeslice h.2 runnable tdelta
    have hframe : (ioVcpuEndTimeslice v runnable tdelta).T = v.T ∧
        (ioVcpuEndTimeslice v runnable tdelta).firstUnblock = v.firstUnblock := by
      rw [ioVcpuEndTimeslice_eq]
      split <;> exact ⟨rfl, rfl⟩
    rw [hframe.1, hframe.2]
    exact ⟨h.1, hafter⟩
  sleep v tdelta h := by
    exact ⟨rfl, fun hnone => absurd hnone h.1, fun _ => rfl⟩
  unblock v woken tcur h hwoken hle := by
    obtain ⟨b, r, hframe⟩ := update_frame (ioVcpuUnblock v woken) tcur
    have hafter := affords_unblock h hwoken hle
    rw [hframe] at hafter ⊢
    exact ⟨by simp [ioVcpuUnblock], hafter⟩

theorem capped_setPeriod (hcapped : Capped h) {T : Nat}
    (hT : h.busy = true → T < h.server.T → Affords h.server T) : Capped (setPeriod h T) := by
  refine ⟨hcapped.clock, fun hbusy => ?_, fun hidle => { hcapped.idle hidle with }⟩
  have haffords := hcapped.busy hbusy
  refine ⟨haffords.1, ?_⟩
  by_cases hlower : T < h.server.T
  · exact hT hbusy hlower
  · exact affords_later haffords.2 (Nat.le_of_not_lt hlower)

theorem capped_step {event : IoEvent} (hcapped : Capped h) (hevent : Affordable h event)
    (hstep : ioStep h event = .ok h') : Capped h' := by
  obtain ⟨hclock, hperiod⟩ := hevent
  obtain ⟨hstart, hbusy, hidle⟩ := phased_step capped_alternate
    { hcapped with } hclock
    (by
      cases event with
      | host event => trivial
      | jobWakeup T unblock now update =>
        exact { capped_setPeriod hcapped hperiod with }
      | atapiRequest T => exact { capped_setPeriod hcapped hperiod with }) hstep
  exact ⟨hstart, hbusy, hidle⟩

/-- As long as no busy VCPU gets a period that is too short for its budget, the budget of a VCPU
that has been woken is within the cap. -/
theorem budget_capped (C T tscUnitFreq vcpuInitTime : Nat) (htime : 0 < vcpuInitTime)
    (h : Hosted IoVcpu)
    (hreach : Lib.Reach.Reaches ioStep Affordable
      (Hosted.initial (ioVcpuInit C T tscUnitFreq) vcpuInitTime) h)
    (hwoken : h.server.firstUnblock ≠ none) :
    0 ≤ h.server.b ∧ h.server.b ≤ h.server.T * h.server.Unum / h.server.Uden := by
  have hcapped : Capped h := by
    refine hreach.invariant Capped ?_ ?_
    · exact ⟨htime, nofun, fun _ => ⟨rfl, fun _ => ⟨rfl, rfl⟩, fun hnone => absurd rfl hnone⟩⟩
    · intro h h' event hinv hevent hstep
      exact capped_step hinv hevent hstep
  refine ⟨Nat.zero_le _, ?_⟩
  cases hbusy : h.busy with
  | true => exact (hcapped.busy hbusy).2.1
  | false =>
    rw [(hcapped.idle hbusy).spent hwoken]
    exact Nat.zero_le _

def loweringEvents : List IoEvent :=
  [.host (.wakeup (.at 1) 1 (.at 1)), .host (.schedule 1 (.at 1) (.choose false) (.at 1)),
    .jobWakeup 50 (.at 2) 2 (.at 2)]

theorem budget_not_capped :
    ∃ h, Lib.Reach.Reaches ioStep IoClockForward (Hosted.initial (ioVcpuInit 1 10 10) 1) h ∧
      h.server.firstUnblock ≠ none ∧ h.running = true ∧ h.server.b = 10 ∧ h.server.T = 50 ∧
      ¬h.server.b ≤ h.server.T * h.server.Unum / h.server.Uden := by
  have hrun : (Lib.Reach.replay ioStep IoClockForward (Hosted.initial (ioVcpuInit 1 10 10) 1)
      loweringEvents).map (fun h => (h.server.firstUnblock, h.running, h.server.b, h.server.T,
        h.server.Unum, h.server.Uden)) = some (some 1, true, 10, 50, 1, 10) := by decide
  obtain ⟨h, hh, hfacts⟩ := Option.map_eq_some_iff.mp hrun
  simp only [Prod.mk.injEq] at hfacts
  obtain ⟨hfirst, hrunning, hb, hT, hnum, hden⟩ := hfacts
  refine ⟨h, Lib.Reach.Reaches.refl.replay hh, ?_, hrunning, hb, hT, ?_⟩
  · rw [hfirst]
    decide
  · rw [hb, hT, hnum, hden]
    decide

theorem budget_capped_longer_period :
    ∃ h, Lib.Reach.Reaches ioStep Affordable (Hosted.initial (ioVcpuInit 1 10 10) 1) h ∧
      h.server.firstUnblock ≠ none ∧ h.server.T = 80 ∧
      0 ≤ h.server.b ∧ h.server.b ≤ h.server.T * h.server.Unum / h.server.Uden := by
  have hrun : (Lib.Reach.replay ioStep Affordable (Hosted.initial (ioVcpuInit 1 10 10) 1)
      [.jobWakeup 80 (.at 1) 1 (.at 1), .host (.schedule 1 (.at 1) (.choose false) (.at 1)),
        .jobWakeup 90 (.at 2) 2 (.at 2)]).map (fun h => (h.server.firstUnblock, h.server.T)) =
        some (some 1, 80) := by decide
  obtain ⟨h, hh, hfacts⟩ := Option.map_eq_some_iff.mp hrun
  rw [Prod.mk.injEq] at hfacts
  have hreach := Lib.Reach.Reaches.refl.replay hh
  have hwoken : h.server.firstUnblock ≠ none := by
    rw [hfacts.1]
    decide
  exact ⟨h, hreach, hwoken, hfacts.2, budget_capped 1 10 10 1 (by decide) h hreach hwoken⟩

end Cap

section Period

/-- The requests made since the VCPU last was idle.  Of those made while it is idle, the last one
counts. -/
def requestsAfter (before after : Bool) (requests : List Nat) : IoEvent → List Nat
  | .host _ => if before && !after then [] else requests
  | .jobWakeup T _ _ _ => if before then T :: requests else [T]
  | .atapiRequest T => if before then T :: requests else [T]

def requestStep (s : Hosted IoVcpu × List Nat) (event : IoEvent) :
    Except Fault (Hosted IoVcpu × List Nat) := do
  let h ← ioStep s.1 event
  .ok (h, requestsAfter s.1.busy h.busy s.2 event)

/-- An ATAPI request to a busy VCPU is not for a longer period, and an idle VCPU is
woken for a request only. -/
def Inherits (s : Hosted IoVcpu × List Nat) : IoEvent → Prop
  | .host (.wakeup _ _ _) => s.1.busy = false → s.2 ≠ []
  | .host (.schedule _ _ _ _) => True
  | .jobWakeup _ _ _ _ => True
  | .atapiRequest T => s.1.busy = true → T ≤ s.1.server.T

instance (s : Hosted IoVcpu × List Nat) : (event : IoEvent) → Decidable (Inherits s event)
  | .host (.wakeup _ _ _) => inferInstanceAs (Decidable (_ → _))
  | .host (.schedule _ _ _ _) => isTrue trivial
  | .jobWakeup _ _ _ _ => isTrue trivial
  | .atapiRequest _ => inferInstanceAs (Decidable (_ → _))

structure Inherited (s : Hosted IoVcpu × List Nat) : Prop where
  requested : s.1.busy = true → s.2 ≠ []
  least : s.2 ≠ [] → IsLeast {T | T ∈ s.2} s.1.server.T

theorem schedule_idle {tcur : Nat} {endTsc : Tsc} {scan : Scan} {update : Tsc}
    (hidle : h.busy = false)
    (hstep : h.step ioServer.hooks (.schedule tcur endTsc scan update) = .ok h') :
    h'.busy = false := by
  obtain ⟨h1, hslice, hscan⟩ := bind_eq_ok.mp hstep
  have hidle' := hidle
  rw [Hosted.busy, Bool.or_eq_false_iff] at hidle'
  obtain ⟨hrun, -⟩ | ⟨-, rfl⟩ := endTimeslice_cases hslice
  · rw [hidle'.2] at hrun
    cases hrun
  · obtain rfl | ⟨hready, -⟩ | ⟨-, hready, -⟩ := scan_cases hscan
    · exact hidle
    · rw [hidle'.1] at hready
      cases hready
    · rw [hidle'.1] at hready
      cases hready

theorem least_singleton (T : Nat) : IsLeast {x | x ∈ [T]} T := by
  simp [IsLeast, lowerBounds]

variable {requests : List Nat}

theorem least_request {T T' : Nat} (h : IsLeast {x | x ∈ requests} T') (hle : T ≤ T')
    : IsLeast {x | x ∈ T :: requests} T := by
  refine ⟨List.mem_cons_self, ?_⟩
  intro x hx
  obtain rfl | hx := List.mem_cons.mp hx
  · exact le_rfl
  · exact hle.trans (h.2 hx)

theorem least_other {T T' : Nat} (h : IsLeast {x | x ∈ requests} T') (hle : T' ≤ T)
    : IsLeast {x | x ∈ T :: requests} T' := by
  refine ⟨List.mem_cons_of_mem T h.1, ?_⟩
  intro x hx
  obtain rfl | hx := List.mem_cons.mp hx
  · exact hle
  · exact h.2 hx

theorem inherited_host (hinv : Inherited (h, requests)) {event : HostEvent}
    (hevent : Inherits (h, requests) (.host event)) (hstep : h.step ioServer.hooks event = .ok h') :
    Inherited (h', requestsAfter h.busy h'.busy requests (.host event)) := by
  have hperiod := host_period hstep
  rw [requestsAfter]
  split
  · rename_i hends
    rw [Bool.and_eq_true, Bool.not_eq_true'] at hends
    refine ⟨fun hbusy => ?_, fun hempty => absurd rfl hempty⟩
    rw [hends.2] at hbusy
    cases hbusy
  · refine ⟨fun hbusy => ?_, fun hreqs => ?_⟩
    · cases hbefore : h.busy with
      | true => exact hinv.requested hbefore
      | false =>
        cases event with
        | wakeup unblock now update => exact hevent hbefore
        | schedule tcur endTsc scan update =>
          rw [schedule_idle hbefore hstep] at hbusy
          cases hbusy
    · rw [hperiod]
      exact hinv.least hreqs

theorem inherited_request (hinv : Inherited (h, requests)) {T : Nat}
    (hT : h'.server.T = T ∧ (h.busy = true → T ≤ h.server.T) ∨ h'.server.T = h.server.T ∧ h.busy = true ∧ h.server.T ≤ T)
    :
    Inherited (h', if h.busy then T :: requests else [T]) := by
  cases hbusy : h.busy with
  | true =>
    have hleast := hinv.least (hinv.requested hbusy)
    refine ⟨fun _ => List.cons_ne_nil _ _, fun _ => ?_⟩
    obtain ⟨hset, hle⟩ | ⟨hkept, -, hle⟩ := hT
    · rw [hset]
      exact least_request hleast (hle hbusy)
    · rw [hkept]
      exact least_other hleast hle
  | false =>
    refine ⟨fun _ => List.cons_ne_nil _ _, fun _ => ?_⟩
    obtain ⟨hset, -⟩ | ⟨-, hcontra, -⟩ := hT
    · rw [hset]
      exact least_singleton T
    · rw [hbusy] at hcontra
      cases hcontra

theorem inherited_step {s s' : Hosted IoVcpu × List Nat} {event : IoEvent} (hinv : Inherited s)
    (hevent : Inherits s event) (hstep : requestStep s event = .ok s') : Inherited s' := by
  obtain ⟨h, requests⟩ := s
  obtain ⟨h', hio, hs'⟩ := bind_eq_ok.mp hstep
  cases hs'
  cases event with
  | host event => exact inherited_host hinv hevent hio
  | jobWakeup T unblock now update =>
    obtain ⟨T', hjob, hT'⟩ := iovcpuJobWakeup_eq h T unblock now update
    rw [ioStep, hjob] at hio
    have hperiod : h'.server.T = T' := host_period (h := setPeriod h T')
      (show Hosted.step _ _ (.wakeup unblock now update) = _ from hio)
    apply inherited_request hinv
    rw [hperiod]
    obtain ⟨rfl, hlower | hidle⟩ | hkept := hT'
    · exact .inl ⟨rfl, fun _ => hlower.le⟩
    · refine .inl ⟨rfl, fun hbusy => ?_⟩
      rw [hidle] at hbusy
      cases hbusy
    · exact .inr hkept
  | atapiRequest T =>
    rw [ioStep] at hio
    cases hio
    exact inherited_request hinv (.inl ⟨rfl, hevent⟩)

/-- As long as ATAPI requests do not raise the period of a busy VCPU, and an idle one is woken for
a request only, the period of a busy VCPU is the least of those requested since it was idle. -/
theorem period_inherited (C T tscUnitFreq vcpuInitTime : Nat) (s : Hosted IoVcpu × List Nat)
    (hreach : Lib.Reach.Reaches requestStep Inherits
      (Hosted.initial (ioVcpuInit C T tscUnitFreq) vcpuInitTime, []) s)
    (hbusy : s.1.busy = true) : IsLeast {T | T ∈ s.2} s.1.server.T := by
  have hinherited : Inherited s := by
    refine hreach.invariant Inherited ?_ ?_
    · exact ⟨nofun, fun hempty => absurd rfl hempty⟩
    · intro s s' event hinv hevent hstep
      exact inherited_step hinv hevent hstep
  exact hinherited.least (hinherited.requested hbusy)

/-- The interrupt handler of a network card asks for a period of 50, and a task
of a longer period then reads a sector. -/
theorem period_not_inherited :
    ∃ s, Lib.Reach.Reaches requestStep (fun s event => IoClockForward s.1 event)
        (Hosted.initial (ioVcpuInit 1 10 10) 1, []) s ∧
      s.1.busy = true ∧ s.2 = [100, 50] ∧ s.1.server.T = 100 ∧
      ¬IsLeast {T | T ∈ s.2} s.1.server.T := by
  have hrun : (Lib.Reach.replay requestStep (fun s event => IoClockForward s.1 event)
      (Hosted.initial (ioVcpuInit 1 10 10) 1, [])
      [.jobWakeup 50 (.at 1) 1 (.at 1), .atapiRequest 100]).map
      (fun s => (s.1.busy, s.2, s.1.server.T)) = some (true, [100, 50], 100) := by decide
  obtain ⟨s, hs, hfacts⟩ := Option.map_eq_some_iff.mp hrun
  simp only [Prod.mk.injEq] at hfacts
  obtain ⟨hbusy, hrequests, hT⟩ := hfacts
  refine ⟨s, Lib.Reach.Reaches.refl.replay hs, hbusy, hrequests, hT, ?_⟩
  rw [hrequests, hT]
  rintro ⟨-, hleast⟩
  have hle : 100 ≤ 50 := hleast (by simp)
  omega

theorem period_inherited_two_requests :
    ∃ s, Lib.Reach.Reaches requestStep Inherits
        (Hosted.initial (ioVcpuInit 1 10 10) 1, []) s ∧
      s.1.busy = true ∧ s.2 = [50, 100] ∧ IsLeast {T | T ∈ s.2} s.1.server.T := by
  have hrun : (Lib.Reach.replay requestStep Inherits (Hosted.initial (ioVcpuInit 1 10 10) 1, [])
      [.atapiRequest 100, .host (.wakeup (.at 1) 1 (.at 1)), .jobWakeup 50 (.at 2) 2 (.at 2)]).map
      (fun s => (s.1.busy, s.2)) = some (true, [50, 100]) := by decide
  obtain ⟨s, hs, hfacts⟩ := Option.map_eq_some_iff.mp hrun
  rw [Prod.mk.injEq] at hfacts
  have hreach := Lib.Reach.Reaches.refl.replay hs
  exact ⟨s, hreach, hfacts.1, hfacts.2, period_inherited 1 10 10 1 s hreach hfacts.1⟩

end Period

end Quest.Sched.Inheritance
