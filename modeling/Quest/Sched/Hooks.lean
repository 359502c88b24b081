import Quest.Basic
import Quest.Lib.Reach

/-! The four hooks of `vcpu_hooks` in `sched/vcpu.h`, and the order in which `vcpu_schedule` and
`vcpu_wakeup` call them for one VCPU. -/
namespace Quest.Sched.Hooks

/-- The `RDTSC` readings of a hook call, in order. -/
structure Tsc where
  first : Nat
  second : Nat
  third : Nat
  deriving DecidableEq

def Tsc.at (now : Nat) : Tsc := ⟨now, now, now⟩

def Tsc.readings (tsc : Tsc) : List Nat := [tsc.first, tsc.second, tsc.third]

/-- `vcpu_hooks`.  The flag `runnable`, which `end_timeslice` reads, is an argument. -/
structure VcpuHooks (σ : Type) where
  updateReplenishments : σ → (tcur : Nat) → Tsc → Except Fault σ
  nextEvent : σ → Tsc → Except Fault Nat
  endTimeslice : σ → (runnable : Bool) → (tdelta : Nat) → Tsc → Except Fault σ
  unblock : σ → Tsc → Except Fault σ
  budget : σ → Nat

/-- One VCPU, current from `tprev` on, with the budget `granted` then.  `clock` is the last
reading and `charges` the intervals for which `end_timeslice` was called. -/
structure Hosted (σ : Type) where
  server : σ
  runnable : Bool
  running : Bool
  tprev : Nat
  granted : Nat
  clock : Nat
  charges : List (Nat × Nat)
  deriving DecidableEq

/-- What a pass of `vcpu_schedule` does with a queued VCPU: skip it because one with a shorter
period has budget, refresh its budget, or choose it.  It stays on the queue if it has `more`
tasks. -/
inductive Scan where
  | skip
  | refresh
  | choose (more : Bool)
  deriving DecidableEq

def Scan.chooses : Scan → Bool
  | choose _ => true
  | _ => false

inductive HostEvent where
  | wakeup (unblock : Tsc) (now : Nat) (update : Tsc)
  | schedule (tcur : Nat) (endTimeslice : Tsc) (scan : Scan) (update : Tsc)
  deriving DecidableEq

variable {σ : Type}

section Host

variable (hooks : VcpuHooks σ)

def Hosted.wakeup (h : Hosted σ) (unblock : Tsc) (now : Nat) (update : Tsc) :
    Except Fault (Hosted σ) := do
  let server ← (if !h.runnable && !h.running then hooks.unblock h.server unblock
    else .ok h.server)
  let server ← hooks.updateReplenishments server now update
  .ok { h with server := server, runnable := true, clock := update.first }

def Hosted.endTimeslice (h : Hosted σ) (tcur : Nat) (tsc : Tsc) : Except Fault (Hosted σ) :=
  if h.running then do
    let server ← hooks.endTimeslice h.server h.runnable (tcur - h.tprev) tsc
    .ok { h with
      server := server, running := false, clock := tsc.third
      charges := (h.tprev, tcur) :: h.charges }
  else .ok { h with clock := tcur }

def Hosted.scan (h : Hosted σ) (tcur : Nat) (scan : Scan) (tsc : Tsc) :
    Except Fault (Hosted σ) :=
  if h.runnable then
    match scan with
    | .skip => .ok h
    | .refresh => do
        let server ← hooks.updateReplenishments h.server tcur tsc
        .ok { h with server := server, clock := tsc.first }
    | .choose more => do
        let server ← hooks.updateReplenishments h.server tcur tsc
        if 0 < hooks.budget server then
          .ok { h with
            server := server, clock := tsc.first, running := true, runnable := more
            tprev := tcur, granted := hooks.budget server }
        else .ok { h with server := server, clock := tsc.first }
  else .ok h

def Hosted.step (h : Hosted σ) : HostEvent → Except Fault (Hosted σ)
  | .wakeup unblock now update => h.wakeup hooks unblock now update
  | .schedule tcur endTsc scan update => do
      let h ← h.endTimeslice hooks tcur endTsc
      h.scan hooks tcur scan update

end Host

def Hosted.initial (server : σ) (now : Nat) : Hosted σ :=
  ⟨server, false, false, 0, 0, now, []⟩

def HostEvent.readings : HostEvent → List Nat
  | .wakeup unblock now update => [unblock.first, unblock.second, now, update.first]
  | .schedule tcur endTsc _ update => tcur :: endTsc.readings ++ [update.first]

def ClockForward (h : Hosted σ) (event : HostEvent) : Prop :=
  (h.clock :: event.readings).Pairwise (· ≤ ·)

instance (h : Hosted σ) (event : HostEvent) : Decidable (ClockForward h event) :=
  inferInstanceAs (Decidable (List.Pairwise _ _))

theorem clockForward_wakeup {h : Hosted σ} {unblock update : Tsc} {now : Nat} :
    ClockForward h (.wakeup unblock now update) ↔ h.clock ≤ unblock.first ∧
      unblock.first ≤ unblock.second ∧ unblock.second ≤ now ∧ now ≤ update.first := by
  simp only [ClockForward, HostEvent.readings, List.pairwise_cons, List.forall_mem_cons]
  simp
  omega

theorem clockForward_schedule {h : Hosted σ} {tcur : Nat} {tsc update : Tsc} {scan : Scan} :
    ClockForward h (.schedule tcur tsc scan update) ↔ h.clock ≤ tcur ∧ tcur ≤ tsc.first ∧
      tsc.first ≤ tsc.second ∧ tsc.second ≤ tsc.third ∧ tsc.third ≤ update.first := by
  simp only [ClockForward, HostEvent.readings, Tsc.readings, List.cons_append, List.nil_append,
    List.pairwise_cons, List.forall_mem_cons]
  simp
  omega

def chargedUpTo (x : Nat) (charges : List (Nat × Nat)) : Nat :=
  (charges.map fun interval => min interval.2 x - interval.1).sum

@[simp] theorem chargedUpTo_cons (x s e : Nat) (charges : List (Nat × Nat)) :
    chargedUpTo x ((s, e) :: charges) = (min e x - s) + chargedUpTo x charges := rfl

def charged (charges : List (Nat × Nat)) : Nat :=
  (charges.map fun interval => interval.2 - interval.1).sum

@[simp] theorem charged_cons (s e : Nat) (charges : List (Nat × Nat)) :
    charged ((s, e) :: charges) = (e - s) + charged charges := rfl

theorem chargedUpTo_le (x : Nat) (charges : List (Nat × Nat)) :
    chargedUpTo x charges ≤ charged charges := by
  induction charges with
  | nil => exact Nat.le_refl 0
  | cons interval charges ih =>
    rw [chargedUpTo_cons, charged_cons]
    omega

def Hosted.busy (h : Hosted σ) : Bool := h.runnable || h.running

section Total

structure Server (σ : Type) where
  updateReplenishments : σ → (tcur : Nat) → Tsc → σ
  nextEvent : σ → Tsc → Nat
  endTimeslice : σ → (runnable : Bool) → (tdelta : Nat) → Tsc → σ
  unblock : σ → Tsc → σ
  budget : σ → Nat

def Server.hooks (server : Server σ) : VcpuHooks σ where
  updateReplenishments s tcur tsc := .ok (server.updateReplenishments s tcur tsc)
  nextEvent s tsc := .ok (server.nextEvent s tsc)
  endTimeslice s runnable tdelta tsc := .ok (server.endTimeslice s runnable tdelta tsc)
  unblock s tsc := .ok (server.unblock s tsc)
  budget := server.budget

variable {server : Server σ} {h h' : Hosted σ}

theorem wakeup_cases {unblock update : Tsc} {now : Nat}
    (hstep : h.wakeup server.hooks unblock now update = .ok h') :
    (h.runnable = false ∧ h.running = false ∧ h' = { h with
        server := server.updateReplenishments (server.unblock h.server unblock) now update
        runnable := true, clock := update.first }) ∨
      (h.busy = true ∧ h' = { h with
        server := server.updateReplenishments h.server now update
        runnable := true, clock := update.first }) := by
  unfold Hosted.wakeup at hstep
  unfold Hosted.busy
  cases hbusy : h.runnable || h.running with
  | true =>
    have hcall : (!h.runnable && !h.running) = false := by rw [← Bool.not_or, hbusy, Bool.not_true]
    simp only [hcall, Bool.false_eq_true, if_false, ok_bind] at hstep
    exact .inr ⟨rfl, (Except.ok.inj hstep).symm⟩
  | false =>
    have hcall : (!h.runnable && !h.running) = true := by rw [← Bool.not_or, hbusy, Bool.not_false]
    simp only [hcall, if_true] at hstep
    rw [Bool.or_eq_false_iff] at hbusy
    exact .inl ⟨hbusy.1, hbusy.2, (Except.ok.inj hstep).symm⟩

variable {tcur : Nat}

theorem endTimeslice_cases {tsc : Tsc} (hstep : h.endTimeslice server.hooks tcur tsc = .ok h') :
    (h.running = true ∧ h' = { h with
        server := server.endTimeslice h.server h.runnable (tcur - h.tprev) tsc
        running := false, clock := tsc.third, charges := (h.tprev, tcur) :: h.charges }) ∨
      (h.running = false ∧ h' = { h with clock := tcur }) := by
  unfold Hosted.endTimeslice at hstep
  split at hstep
  · rename_i hrun
    exact .inl ⟨hrun, (Except.ok.inj hstep).symm⟩
  · rename_i hrun
    rw [Bool.not_eq_true] at hrun
    exact .inr ⟨hrun, (Except.ok.inj hstep).symm⟩

theorem scan_cases {scan : Scan} {tsc : Tsc} (hstep : h.scan server.hooks tcur scan tsc = .ok h') :
    h' = h ∨ (h.runnable = true ∧ h' = { h with
        server := server.updateReplenishments h.server tcur tsc, clock := tsc.first }) ∨
      (scan.chooses = true ∧ h.runnable = true ∧
        0 < server.budget (server.updateReplenishments h.server tcur tsc) ∧ ∃ more, h' = { h with
          server := server.updateReplenishments h.server tcur tsc, clock := tsc.first
          running := true, runnable := more, tprev := tcur
          granted := server.budget (server.updateReplenishments h.server tcur tsc) }) := by
  unfold Hosted.scan at hstep
  split at hstep
  · rename_i hready
    cases scan with
    | skip => exact .inl (Except.ok.inj hstep).symm
    | refresh => exact .inr (.inl ⟨hready, (Except.ok.inj hstep).symm⟩)
    | choose more =>
      have hupdate : server.hooks.updateReplenishments h.server tcur tsc =
          .ok (server.updateReplenishments h.server tcur tsc) := rfl
      simp only [hupdate, ok_bind] at hstep
      split at hstep
      · rename_i hbudget
        exact .inr (.inr ⟨rfl, hready, hbudget, more, (Except.ok.inj hstep).symm⟩)
      · exact .inr (.inl ⟨hready, (Except.ok.inj hstep).symm⟩)
  · exact .inl (Except.ok.inj hstep).symm

theorem schedule_clock {endTsc : Tsc} {scan : Scan} {update : Tsc} {h1 : Hosted σ}
    (hclock : ClockForward h (.schedule tcur endTsc scan update))
    (hslice : h.endTimeslice server.hooks tcur endTsc = .ok h1)
    (hscan : h1.scan server.hooks tcur scan update = .ok h') : tcur ≤ h'.clock := by
  obtain ⟨-, hend, hsecond, hthird, hupdate⟩ := clockForward_schedule.mp hclock
  have hfirst : tcur ≤ h1.clock := by
    obtain ⟨-, rfl⟩ | ⟨-, rfl⟩ := endTimeslice_cases hslice
    · dsimp only
      omega
    · exact Nat.le_refl _
  obtain rfl | ⟨-, rfl⟩ | ⟨-, -, -, -, rfl⟩ := scan_cases hscan
  · exact hfirst
  · dsimp only
    omega
  · dsimp only
    omega

end Total

/-! Two implementations of the hooks that behave alike, for states related by
`R`, cannot be told apart by the scheduler. -/

section Simulation

variable {τ : Type}

structure Simulates (R : σ → τ → Prop) (f : VcpuHooks σ) (g : VcpuHooks τ) : Prop where
  update : ∀ s t, R s t → ∀ tcur tsc, ∃ s' t', f.updateReplenishments s tcur tsc = .ok s' ∧
    g.updateReplenishments t tcur tsc = .ok t' ∧ R s' t'
  endTimeslice : ∀ s t, R s t → ∀ runnable tdelta tsc, ∃ s' t',
    f.endTimeslice s runnable tdelta tsc = .ok s' ∧
    g.endTimeslice t runnable tdelta tsc = .ok t' ∧ R s' t'
  unblock : ∀ s t, R s t → ∀ tsc : Tsc, tsc.first ≤ tsc.second → ∃ s' t',
    f.unblock s tsc = .ok s' ∧ g.unblock t tsc = .ok t' ∧ R s' t'
  budget : ∀ s t, R s t → f.budget s = g.budget t

def Alike (R : σ → τ → Prop) (h : Hosted σ) (k : Hosted τ) : Prop :=
  R h.server k.server ∧
    k = ⟨k.server, h.runnable, h.running, h.tprev, h.granted, h.clock, h.charges⟩

variable {R : σ → τ → Prop} {f : VcpuHooks σ} {g : VcpuHooks τ}

variable {k : Hosted τ}

variable (hsim : Simulates R f g)
include hsim

theorem alike_wakeup {h : Hosted σ} (halike : Alike R h k) (unblock : Tsc)
    (now : Nat) (update : Tsc) (hle : unblock.first ≤ unblock.second) :
    ∃ h' k', h.wakeup f unblock now update = .ok h' ∧ k.wakeup g unblock now update = .ok k' ∧
      Alike R h' k' := by
  obtain ⟨hR, hk⟩ := halike
  rw [hk]
  unfold Hosted.wakeup
  cases hblocked : !h.runnable && !h.running with
  | true =>
    obtain ⟨s, t, hs, ht, hst⟩ := hsim.unblock _ _ hR unblock hle
    obtain ⟨s', t', hs', ht', hst'⟩ := hsim.update _ _ hst now update
    simp only [if_true, hs, ht, ok_bind, hs', ht']
    exact ⟨_, _, rfl, rfl, hst', rfl⟩
  | false =>
    obtain ⟨s', t', hs', ht', hst'⟩ := hsim.update _ _ hR now update
    simp only [Bool.false_eq_true, if_false, ok_bind, hs', ht']
    exact ⟨_, _, rfl, rfl, hst', rfl⟩

theorem alike_endTimeslice {h : Hosted σ} (halike : Alike R h k)
    (tcur : Nat) (tsc : Tsc) :
    ∃ h' k', h.endTimeslice f tcur tsc = .ok h' ∧ k.endTimeslice g tcur tsc = .ok k' ∧
      Alike R h' k' := by
  obtain ⟨hR, hk⟩ := halike
  rw [hk]
  unfold Hosted.endTimeslice
  cases hrun : h.running with
  | true =>
    obtain ⟨s, t, hs, ht, hst⟩ := hsim.endTimeslice _ _ hR h.runnable (tcur - h.tprev) tsc
    simp only [if_true, hs, ht, ok_bind]
    exact ⟨_, _, rfl, rfl, hst, rfl⟩
  | false => exact ⟨_, _, rfl, rfl, hR, by simp⟩

theorem alike_scan {h : Hosted σ} (halike : Alike R h k) (tcur : Nat)
    (scan : Scan) (tsc : Tsc) :
    ∃ h' k', h.scan f tcur scan tsc = .ok h' ∧ k.scan g tcur scan tsc = .ok k' ∧
      Alike R h' k' := by
  obtain ⟨hR, hk⟩ := halike
  obtain ⟨s, t, hs, ht, hst⟩ := hsim.update _ _ hR tcur tsc
  rw [hk]
  unfold Hosted.scan
  cases hready : h.runnable with
  | false => exact ⟨_, _, rfl, rfl, hR, by rw [hready]⟩
  | true =>
    cases scan with
    | skip => exact ⟨_, _, rfl, rfl, hR, by rw [hready]⟩
    | refresh =>
      simp only [if_true, hs, ht, ok_bind]
      exact ⟨_, _, rfl, rfl, hst, by simp⟩
    | choose more =>
      simp only [if_true, hs, ht, ok_bind, hsim.budget _ _ hst]
      split
      · exact ⟨_, _, rfl, rfl, hst, rfl⟩
      · exact ⟨_, _, rfl, rfl, hst, by simp⟩

theorem alike_step {h : Hosted σ} (halike : Alike R h k)
    (event : HostEvent) (hclock : ClockForward h event) :
    ∃ h' k', h.step f event = .ok h' ∧ k.step g event = .ok k' ∧ Alike R h' k' := by
  cases event with
  | wakeup unblock now update =>
    have hle := (clockForward_wakeup.mp hclock).2.1
    exact alike_wakeup hsim halike unblock now update hle
  | schedule tcur endTsc scan update =>
    obtain ⟨h1, k1, hh1, hk1, halike1⟩ := alike_endTimeslice hsim halike tcur endTsc
    obtain ⟨h2, k2, hh2, hk2, halike2⟩ := alike_scan hsim halike1 tcur scan update
    refine ⟨h2, k2, ?_, ?_, halike2⟩
    · rw [Hosted.step, hh1, ok_bind, hh2]
    · rw [Hosted.step, hk1, ok_bind, hk2]

theorem alike_invariant {h0 h : Hosted σ} {k0 : Hosted τ}
    {guard : Hosted σ → HostEvent → Prop} (inv : Hosted τ → Prop)
    (hreach : Lib.Reach.Reaches (Hosted.step f) guard h0 h) (halike : Alike R h0 k0)
    (hstart : inv k0) (hclock : ∀ h event, guard h event → ClockForward h event)
    (hstep : ∀ h k k' event, Alike R h k → inv k → guard h event → k.step g event = .ok k' →
      inv k') :
    ∃ k, Alike R h k ∧ inv k := by
  apply hreach.invariant (fun h => ∃ k, Alike R h k ∧ inv k) ⟨k0, halike, hstart⟩
  intro h h' event ⟨k, halike, hinv⟩ hevent hh
  obtain ⟨h', k', hh', hk', hnext⟩ := alike_step hsim halike event (hclock h event hevent)
  cases hh.symm.trans hh'
  exact ⟨k', hnext, hstep h k k' event halike hinv hevent hk'⟩

end Simulation

end Quest.Sched.Hooks
