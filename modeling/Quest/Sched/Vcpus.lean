import Quest.Sched.Pibs
import Quest.Sched.Progress

/-! Main and IO VCPUs under one scheduler.  A run of the scheduler is a run of the sporadic server
for each Main VCPU and of the I/O server for each IO VCPU. -/
namespace Quest.Sched.Vcpus

open Lib.Reach Hooks Sched.Core Sporadic Pibs Projection Progress
open RunInvariants (Initial)

abbrev Budget := MainVcpu ⊕ IoVcpu

def ofType {ρ : Type} (hooks : VcpuHooks ρ) (embed : ρ → Budget) (part : Budget → Option ρ) :
    VcpuHooks Budget where
  updateReplenishments s tcur tsc := do
    let r ← deref (part s)
    embed <$> hooks.updateReplenishments r tcur tsc
  nextEvent s tsc := do
    let r ← deref (part s)
    hooks.nextEvent r tsc
  endTimeslice s runnable tdelta tsc := do
    let r ← deref (part s)
    embed <$> hooks.endTimeslice r runnable tdelta tsc
  unblock s tsc := do
    let r ← deref (part s)
    embed <$> hooks.unblock r tsc
  budget s := (part s).elim 0 hooks.budget

def vcpuHooksTable : VcpuType → VcpuHooks Budget
  | .main => ofType mainVcpuHooks .inl Sum.getLeft?
  | .io => ofType ioServer.hooks .inr Sum.getRight?

def period : Budget → Nat := Sum.elim MainVcpu.T IoVcpu.T

def assignPeriod (s : Budget) (T : Nat) : Budget :=
  s.map (fun v => { v with T := T }) fun v => { v with T := T }

variable {τ : Type} {n : Nat} {cfg : Config Budget τ n} {v : Fin n}

structure Typed (cfg : Config Budget τ n) : Prop where
  hooks : ∀ v, cfg.hooks v = vcpuHooksTable (cfg.type v)
  period : cfg.period = period
  setPeriod : cfg.setPeriod = assignPeriod

section Hosted

variable {ρ ε : Type} {embed : ρ → Budget}

def asBudget (embed : ρ → Budget) (h : Hosted ρ) : Hosted Budget :=
  { h with server := embed h.server }

theorem step_asBudget {h : Hosted ρ} {k : Hosted Budget} {event : HostEvent} (hooks : VcpuHooks ρ)
    (part : Budget → Option ρ) (hpart : ∀ r, part (embed r) = some r)
    (hstep : (asBudget embed h).step (ofType hooks embed part) event = .ok k) :
    ∃ h', h.step hooks event = .ok h' ∧ asBudget embed h' = k := by
  refine map_eq_ok.mp (Eq.trans ?_ hstep)
  cases event with
  | wakeup unblock now update =>
    cases hready : h.runnable <;> cases hrun : h.running <;>
      simp [Hosted.step, Hosted.wakeup, ofType, asBudget, hpart, ok_bind, hready, hrun]
  | schedule tcur endTsc scan update =>
    have hscan (h : Hosted ρ) : (asBudget embed h).scan (ofType hooks embed part) tcur scan update =
        asBudget embed <$> h.scan hooks tcur scan update := by
      cases hready : h.runnable <;> cases scan <;>
        simp [Hosted.scan, ofType, hpart, asBudget, apply_ite, ok_bind, hready]
    cases hrun : h.running <;>
      simp [Hosted.step, Hosted.endTimeslice, ofType, hpart, ok_bind, hrun, ← hscan, asBudget]

theorem tracked_typed {c : Clocked Budget τ n} {r : ρ} {clock : Nat} {guard : Hosted ρ → ε → Prop}
    {next : Hosted ρ → ε → Except Fault (Hosted ρ)}
    (htracked : Tracked cfg v (Hosted.initial (embed r) clock) c)
    (hnext : ∀ h k e, VcpuForward cfg v (asBudget embed h) e →
      vcpuStep cfg v (asBudget embed h) e = .ok k →
      ∃ e' h', guard h e' ∧ next h e' = .ok h' ∧ asBudget embed h' = k) :
    ∃ h, Reaches next guard (Hosted.initial r clock) h ∧ Hosts cfg v c (asBudget embed h) := by
  obtain ⟨k, hrun, hhosts⟩ := htracked
  suffices htyped : ∃ h, Reaches next guard (Hosted.initial r clock) h ∧ asBudget embed h = k by
    obtain ⟨h, hreached, rfl⟩ := htyped
    exact ⟨h, hreached, hhosts⟩
  apply hrun.invariant (fun k => ∃ h, Reaches next guard (Hosted.initial r clock) h ∧
    asBudget embed h = k) ⟨_, .refl, rfl⟩
  rintro _ k e ⟨h, hreached, rfl⟩ hfwd hstep
  obtain ⟨e', h', hguard, hok, heq⟩ := hnext h k e hfwd hstep
  exact ⟨h', hreached.tail hguard hok, heq⟩

end Hosted

variable {start c : Clocked Budget τ n}

/-- In every run of the scheduler, each Main VCPU goes through a run of the sporadic server and
each IO VCPU through a run of the I/O server. -/
theorem vcpus_reached [DecidableEq τ] [Fintype τ] (htyped : Typed cfg)
    (hstart : Initial start.sched) (hcharges : start.charges v = [])
    (hreach : Reaches (step cfg) (Forward cfg) start c) :
    (∀ r, cfg.type v = .main → start.sched.servers v = .inl r →
      ∃ h, Reaches (Hosted.step mainVcpuHooks) ClockForward (Hosted.initial r start.clock) h ∧
        Hosts cfg v c (asBudget .inl h)) ∧
    ∀ r, cfg.type v = .io → start.sched.servers v = .inr r →
      ∃ h, Reaches ioStep IoClockForward (Hosted.initial r start.clock) h ∧
        Hosts cfg v c (asBudget .inr h) := by
  have htracked := tracked_reached hstart hcharges hreach
  constructor
  · intro r hv hserver
    rw [hserver] at htracked
    refine tracked_typed htracked fun h k e hfwd hstep => ?_
    cases e with
    | host event =>
      rw [vcpuStep, htyped.hooks, hv] at hstep
      obtain ⟨h', hok, heq⟩ := step_asBudget mainVcpuHooks Sum.getLeft? (fun _ => rfl) hstep
      exact ⟨event, h', hfwd, hok, heq⟩
    | request T => exact absurd (hv.symm.trans hfwd) (by decide)
  · intro r hv hserver
    rw [hserver] at htracked
    refine tracked_typed htracked fun h k e hfwd hstep => ?_
    cases e with
    | host event =>
      rw [vcpuStep, htyped.hooks, hv] at hstep
      obtain ⟨h', hok, heq⟩ := step_asBudget ioServer.hooks Sum.getRight? (fun _ => rfl) hstep
      exact ⟨.host event, h', hfwd, hok, heq⟩
    | request T =>
      cases hstep
      refine ⟨.atapiRequest T, setPeriod h T, trivial, rfl, ?_⟩
      rw [htyped.setPeriod]
      rfl

def Kept (cfg : Config Budget τ n) (v : Fin n) (s : Budget) : Prop :=
  (cfg.type v = .main ∧ ∃ r C T a, s = .inl r ∧ Keeps C T r a) ∨
    (cfg.type v = .io ∧ ∃ r, s = .inr r)

theorem main_responsive (hv : cfg.type v = .main) :
    Responsive (vcpuHooksTable .main) (Kept cfg v) := by
  have hcases : ∀ s, Kept cfg v s → ∃ r C T a, s = .inl r ∧ Keeps C T r a := by
    rintro s (⟨-, hmain⟩ | ⟨hio, -⟩)
    · exact hmain
    · rw [hv] at hio
      cases hio
  refine ⟨?_, ?_, ?_, ?_⟩
  · intro s hkept tcur tsc
    obtain ⟨r, C, T, a, rfl, hkeeps⟩ := hcases s hkept
    obtain ⟨r', a', hr', -, hnext⟩ := (mainVcpuHooks_simulates C T).update r a hkeeps tcur tsc
    exact ⟨.inl r', map_eq_ok.mpr ⟨r', hr', rfl⟩, .inl ⟨hv, r', C, T, a', rfl, hnext⟩⟩
  · intro s hkept tsc
    obtain ⟨r, C, T, a, rfl, hkeeps⟩ := hcases s hkept
    exact ⟨_, mainVcpuNextEvent_eq hkeeps.1.represents tsc.first⟩
  · intro s hkept runnable tdelta tsc
    obtain ⟨r, C, T, a, rfl, hkeeps⟩ := hcases s hkept
    obtain ⟨r', a', hr', -, hnext⟩ :=
      (mainVcpuHooks_simulates C T).endTimeslice r a hkeeps runnable tdelta tsc
    exact ⟨.inl r', map_eq_ok.mpr ⟨r', hr', rfl⟩, .inl ⟨hv, r', C, T, a', rfl, hnext⟩⟩
  · intro s hkept tsc hread
    obtain ⟨r, C, T, a, rfl, hkeeps⟩ := hcases s hkept
    obtain ⟨r', a', hr', -, hnext⟩ := (mainVcpuHooks_simulates C T).unblock r a hkeeps tsc hread
    exact ⟨.inl r', map_eq_ok.mpr ⟨r', hr', rfl⟩, .inl ⟨hv, r', C, T, a', rfl, hnext⟩⟩

theorem io_responsive (hv : cfg.type v = .io) :
    Responsive (vcpuHooksTable .io) (Kept cfg v) := by
  have hcases : ∀ s, Kept cfg v s → ∃ r, s = .inr r := by
    rintro s (⟨hmain, -⟩ | ⟨-, hio⟩)
    · rw [hv] at hmain
      cases hmain
    · exact hio
  have hkept : ∀ r, Kept cfg v (.inr r) := fun r => .inr ⟨hv, r, rfl⟩
  refine ⟨?_, ?_, ?_, ?_⟩
  · intro s hs tcur tsc
    obtain ⟨r, rfl⟩ := hcases s hs
    exact ⟨_, rfl, hkept _⟩
  · intro s hs tsc
    obtain ⟨r, rfl⟩ := hcases s hs
    exact ⟨_, rfl⟩
  · intro s hs runnable tdelta tsc
    obtain ⟨r, rfl⟩ := hcases s hs
    exact ⟨_, rfl, hkept _⟩
  · intro s hs tsc _
    obtain ⟨r, rfl⟩ := hcases s hs
    exact ⟨_, rfl, hkept _⟩

theorem kept_lasting (htyped : Typed cfg) : Lasting cfg (Kept cfg) where
  hooks v := by
    rw [htyped.hooks]
    cases hv : cfg.type v with
    | main => exact main_responsive hv
    | io => exact io_responsive hv
  period v s T hv hkept := by
    rw [htyped.setPeriod]
    rcases hkept with ⟨hmain, -⟩ | ⟨-, r, rfl⟩
    · rw [hv] at hmain
      cases hmain
    · exact .inr ⟨hv, _, rfl⟩

theorem mainVcpuInit_kept (C T vcpuInitTime : Nat) (hC : 0 < C) (htime : 0 < vcpuInitTime)
    (hv : cfg.type v = .main) :
    ∃ r, mainVcpuInit C T vcpuInitTime = .ok r ∧ Kept cfg v (.inl r) := by
  obtain ⟨r, hinit, hkeeps⟩ := mainVcpuInit_keeps C T vcpuInitTime hC htime
  exact ⟨r, hinit, .inl ⟨hv, r, C, T, _, rfl, hkeeps⟩⟩

end Quest.Sched.Vcpus
