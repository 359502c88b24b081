import Quest.Sched.Refinement
import Quest.Sched.Sporadic

/-! The invariants that `check_run_invariants` tests, and that no task is lost or duplicated. -/
namespace Quest.Sched.RunInvariants

open Lib.LinkedList Lib.Reach Hooks Queue Sched.Core Rules Refinement Sporadic

variable {σ τ : Type} {n : Nat} [Fintype τ]

structure Initial (s : Scheduler σ τ n) : Prop where
  runqueue : ∀ v, s.runqueue v = none
  vcpuQueue : ∀ p, s.vcpuQueue p = none
  vcpuCurrent : ∀ p, s.vcpuCurrent p = none
  vcpus : ∀ v, s.vcpus v = ⟨false, false, none, 0⟩

def Inv (cfg : Config σ τ n) (s : Scheduler σ τ n) : Prop :=
  Sound cfg s.toLinks (board s.toLinks) ∧ Flagged cfg s.toLinks (board s.toLinks)

variable {cfg : Config σ τ n} {start s s' : Scheduler σ τ n}

theorem inv_of_board {b : Board τ (Fin n) Nat} (hsound : Sound cfg s.toLinks b)
    (hflags : Flagged cfg s.toLinks b) : Inv cfg s := by
  unfold Inv
  rw [hsound.board_eq]
  exact ⟨hsound, hflags⟩

theorem inv_initial (h : Initial s) : Inv cfg s := by
  have hthreaded : Linked s.toLinks ⟨fun _ => [], fun _ => [], fun _ => none, fun _ => none⟩ := by
    refine ⟨⟨?_, ?_⟩, ⟨?_, ?_⟩, ?_, funext h.vcpuCurrent⟩
    · exact h.runqueue
    · exact fun u v x hx => absurd hx List.not_mem_nil
    · exact h.vcpuQueue
    · exact fun u v x hx => absurd hx List.not_mem_nil
    · intro v
      rw [h.vcpus v]
  refine inv_of_board ⟨hthreaded, ?_, ?_, ?_⟩ ⟨?_, ?_⟩
  · exact consistent_empty cfg.cpu (fun _ => rfl) (fun _ => rfl) (fun _ => rfl)
  · exact fun v t ht => absurd ht List.not_mem_nil
  · intro v _
    rw [h.vcpus v]
  · intro v
    simp [h.vcpus v]
  · intro v
    simp [h.vcpus v]

/-- What `check_run_invariants` looks at on the PCPU `p`, with the links it
follows. -/
structure CheckRunInvariants (cfg : Config σ τ n) (s : Scheduler σ τ n) (p : Nat) : Prop where
  queueLinks : Chain s.vnext (s.vcpuQueue p) ((board s.toLinks).queue p)
  runqueueLinks : ∀ v, Chain s.next (s.runqueue v) ((board s.toLinks).tasks v)
  queueNodup : ((board s.toLinks).queue p).Nodup
  affine : ∀ v ∈ (board s.toLinks).queue p, cfg.cpu v = p
  queued : ∀ v, cfg.cpu v = p →
    (v ∈ (board s.toLinks).queue p ↔ (s.vcpus v).runnable = true)
  runnable : ∀ v, (s.vcpus v).runnable = true ↔ (board s.toLinks).tasks v ≠ []
  running : ∀ v, cfg.cpu v = p → ((s.vcpus v).running = true ↔ s.vcpuCurrent p = some v)
  current : ∀ v, s.vcpuCurrent p = some v → cfg.cpu v = p ∧ ∃ t, (s.vcpus v).tr = some t

theorem checkRunInvariants_of_inv (h : Inv cfg s) (p : Nat) : CheckRunInvariants cfg s p := by
  obtain ⟨hsound, hflags⟩ := h
  have hboard := hsound.consistent
  refine ⟨hsound.queue.chain p, hsound.tasks.chain, hboard.orderly p, ?_, ?_, hflags.runnable,
    ?_, ?_⟩
  · exact fun v hv => ((hboard.queued p v).mp hv).1
  · intro v hv
    rw [hboard.queued, hflags.runnable]
    exact and_iff_right hv
  · intro v hv
    rw [hflags.running, hv]
    rfl
  · intro v hv
    obtain ⟨hcpu, htr⟩ := hboard.active p v hv
    exact ⟨hcpu, Option.ne_none_iff_exists'.mp htr⟩

variable [DecidableEq τ]

/-- `bind` is an assignment to the field `cpu` of a TSS, by the code that creates
a task or moves it to an IO VCPU. -/
inductive Event (τ : Type) (n : Nat) where
  | wakeup (p : Nat) (task : τ) (tsc : WakeupTsc)
  | schedule (p : Nat) (tsc : ScheduleTsc n)
  | bind (task : τ) (cpu : Nat)

def step (cfg : Config σ τ n) (s : Scheduler σ τ n) : Event τ n → Except Fault (Scheduler σ τ n)
  | .wakeup p task tsc => s.vcpuWakeup cfg p task tsc
  | .schedule p tsc => s.vcpuSchedule cfg p tsc
  | .bind task cpu => .ok { s with binding := Function.update s.binding task cpu }

def BindingKept (s : Scheduler σ τ n) : Event τ n → Prop
  | .bind task _ => ∀ v, task ∉ (board s.toLinks).tasks v
  | _ => True

instance (s : Scheduler σ τ n) (event : Event τ n) : Decidable (BindingKept s event) := by
  unfold BindingKept
  cases event <;> exact inferInstance

theorem inv_step {event : Event τ n} (h : Inv cfg s) (hguard : BindingKept s event)
    (hstep : step cfg s event = .ok s') : Inv cfg s' := by
  obtain ⟨hsound, hflags⟩ := h
  cases event with
  | wakeup p task tsc =>
    obtain ⟨v, hwoken, -⟩ := vcpuWakeup_refines hsound hstep
    exact inv_of_board hwoken.sound (hwoken.flagged hflags)
  | schedule p tsc =>
    obtain ⟨b', selected, hsched⟩ := vcpuSchedule_refines hsound hstep
    exact inv_of_board hsched.sound (hsched.flagged hflags)
  | bind task cpu =>
    cases hstep
    exact inv_of_board (hsound.rebind hguard) { hflags with }

theorem inv_reached (hstart : Initial start)
    (hreach : Reaches (step cfg) BindingKept start s) : Inv cfg s :=
  hreach.invariant (Inv cfg) (inv_initial hstart) fun _ _ _ h => inv_step h

/-! Two Main VCPUs on one PCPU, for runs on given readings. -/

section TwoMain

def twoMain : Config MainVcpu (Fin 4) 2 where
  hooks _ := mainVcpuHooks
  period v := v.T
  setPeriod v T := { v with T := T }
  type _ := .main
  cpu _ := 0
  quantum _ := 10
  idleTss _ := 3
  cpuBusFreq := 100000
  tscFreq := 1000
  tscFreq_pos := by decide
  unbound_free := by decide

def twoMainBoot : Option (Scheduler MainVcpu (Fin 4) 2) :=
  match mainVcpuInit 2 10 1, mainVcpuInit 5 20 1 with
  | .ok v0, .ok v1 => some (.boot (fun _ => 0xFF) ![v0, v1])
  | _, _ => none

theorem twoMainBoot_initial {start : Scheduler MainVcpu (Fin 4) 2}
    (h : twoMainBoot = some start) : Initial start := by
  unfold twoMainBoot at h
  split at h
  · rw [← Option.some.inj h]
    exact ⟨fun _ => rfl, fun _ => rfl, fun _ => rfl, fun _ => rfl⟩
  · cases h

def twoMainRun (events : List (Event (Fin 4) 2)) : Option (Scheduler MainVcpu (Fin 4) 2) :=
  twoMainBoot.bind fun start => replay (step twoMain) BindingKept start events

def wakeupAt (task : Fin 4) (now : Nat) : Event (Fin 4) 2 :=
  .wakeup 0 task ⟨.at now, now, .at now⟩

def scheduleAt (now : Nat) : Event (Fin 4) 2 :=
  .schedule 0 ⟨now, now, .at now, fun _ => .at now, fun _ => .at now, now⟩

theorem twoMainRun_reaches {events : List (Event (Fin 4) 2)} {s : Scheduler MainVcpu (Fin 4) 2}
    (hrun : twoMainRun events = some s) :
    ∃ start, Initial start ∧ Reaches (step twoMain) BindingKept start s := by
  obtain ⟨start, hboot, hevents⟩ := Option.bind_eq_some_iff.mp hrun
  exact ⟨start, twoMainBoot_initial hboot, Reaches.refl.replay hevents⟩

end TwoMain

/-- The run invariants hold between the calls, and a task that a call of
`vcpu_schedule` starts is not on the runqueue of its VCPU. -/
theorem run_invariants (hstart : Initial start)
    (hreach : Reaches (step cfg) BindingKept start s) (p : Nat) :
    CheckRunInvariants cfg s p ∧
      ∀ tsc s', s.vcpuSchedule cfg p tsc = .ok s' → ∀ v, s'.vcpuCurrent p = some v →
        ∃ t, (s'.vcpus v).tr = some t ∧ t ∉ (board s'.toLinks).tasks v := by
  have hinv := inv_reached hstart hreach
  refine ⟨checkRunInvariants_of_inv hinv p, ?_⟩
  intro tsc s' hstep v hcurrent
  obtain ⟨b', selected, hscheduled⟩ := vcpuSchedule_refines hinv.1 hstep
  have hsound' := hscheduled.sound
  have hboard := hsound'.board_eq
  rw [hsound'.current] at hcurrent
  obtain ⟨t, -, -, htr, hout⟩ := schedule_current hinv.1.consistent hscheduled.rule hcurrent
  exact ⟨t, (hsound'.tr v).trans htr, hboard ▸ hout⟩

/-- Two tasks share a VCPU; the other VCPU runs out of budget at 5. -/
theorem run_invariants_two_vcpus :
    ∃ start s, Initial start ∧ Reaches (step twoMain) BindingKept start s ∧
      s.vcpuCurrent 0 = some 1 ∧ (board s.toLinks).queue 0 = [1] ∧
      (board s.toLinks).tasks 1 = [2] ∧ CheckRunInvariants twoMain s 0 := by
  have hrun : (twoMainRun [wakeupAt 0 2, wakeupAt 1 2, wakeupAt 2 2, scheduleAt 3,
      scheduleAt 5]).map (fun s => (s.vcpuCurrent 0, (board s.toLinks).queue 0,
        (board s.toLinks).tasks 1)) = some (some 1, [1], [2]) := by
    decide
  obtain ⟨s, hs, hview⟩ := Option.map_eq_some_iff.mp hrun
  obtain ⟨start, hstart, hreach⟩ := twoMainRun_reaches hs
  simp only [Prod.mk.injEq] at hview
  obtain ⟨hcurrent, hqueue, htasks⟩ := hview
  exact ⟨start, s, hstart, hreach, hcurrent, hqueue, htasks, (run_invariants hstart hreach 0).1⟩

/-- A task is on one runqueue at most, and there once; it gets there by a wakeup and stays until
it is chosen.  After `vcpu_schedule` a task that was waiting is waiting, on a VCPU that is queued,
or is the one that runs. -/
theorem tasks_preserved (hstart : Initial start)
    (hreach : Reaches (step cfg) BindingKept start s) :
    (∀ v, ((board s.toLinks).tasks v).Nodup) ∧
    (∀ u v t, t ∈ (board s.toLinks).tasks u → t ∈ (board s.toLinks).tasks v → u = v) ∧
    (∀ event s', BindingKept s event → step cfg s event = .ok s' → ∀ v t,
      (t ∈ (board s.toLinks).tasks v → t ∈ (board s'.toLinks).tasks v ∨
        ∃ p tsc, event = .schedule p tsc ∧ s'.vcpuCurrent p = some v ∧
          (s'.vcpus v).tr = some t ∧ t ∉ (board s'.toLinks).tasks v) ∧
      (t ∈ (board s'.toLinks).tasks v → t ∈ (board s.toLinks).tasks v ∨
        ∃ p tsc, event = .wakeup p t tsc)) ∧
    (∀ p t tsc s', s.vcpuWakeup cfg p t tsc = .ok s' →
      ∃ v, t ∈ (board s'.toLinks).tasks v ∧ v ∈ (board s'.toLinks).queue (cfg.cpu v)) ∧
    (∀ p tsc s', s.vcpuSchedule cfg p tsc = .ok s' → ∀ v, cfg.cpu v = p →
      ∀ t ∈ (board s.toLinks).tasks v,
        t ∈ (board s'.toLinks).tasks v ∧ v ∈ (board s'.toLinks).queue p ∨
        s'.vcpuCurrent p = some v ∧ (s'.vcpus v).tr = some t ∧ s'.str p = some t) := by
  obtain ⟨hsound, -⟩ := inv_reached hstart hreach
  have hboard := hsound.consistent
  refine ⟨hboard.distinct, hboard.once, ?_, ?_, ?_⟩
  · intro event s' hguard hstep v t
    cases event with
    | wakeup p task tsc =>
      obtain ⟨u, hwoken, -⟩ := vcpuWakeup_refines hsound hstep
      rw [hwoken.sound.board_eq, mem_wake_tasks]
      refine ⟨fun ht => .inl (.inl ht), ?_⟩
      rintro (ht | ⟨-, rfl⟩)
      · exact .inl ht
      · exact .inr ⟨p, tsc, rfl⟩
    | schedule p tsc =>
      obtain ⟨b', selected, hscheduled⟩ := vcpuSchedule_refines hsound hstep
      have hsound' := hscheduled.sound
      have hrule := hscheduled.rule
      rw [hsound'.board_eq]
      refine ⟨fun ht => ?_, fun ht => .inl (schedule_tasks_subset hboard hrule ht)⟩
      rcases schedule_preserves hboard hrule ht with ⟨hkept, -⟩ | ⟨-, hcurrent, htr⟩
      · exact .inl hkept
      · obtain ⟨t', -, -, htr', hout⟩ := schedule_current hboard hrule hcurrent
        cases htr.symm.trans htr'
        refine .inr ⟨p, tsc, rfl, ?_, (hsound'.tr v).trans htr, hout⟩
        rw [hsound'.current]
        exact hcurrent
    | bind task cpu =>
      cases hstep
      exact ⟨.inl, .inl⟩
  · intro p t tsc s' hstep
    obtain ⟨v, hwoken, -⟩ := vcpuWakeup_refines hsound hstep
    rw [hwoken.sound.board_eq]
    exact ⟨v, mem_wake_tasks.mpr (.inr ⟨rfl, rfl⟩), mem_wake_queue.mpr (.inr ⟨rfl, rfl⟩)⟩
  · intro p tsc s' hstep v hv t ht
    obtain ⟨b', selected, hscheduled⟩ := vcpuSchedule_refines hsound hstep
    have hsound' := hscheduled.sound
    rw [hsound'.board_eq, hsound'.current, hsound'.tr v, ← hv]
    rcases schedule_preserves hboard hscheduled.rule ht with hwaiting | ⟨hselected, hcurrent, htr⟩
    · exact .inl hwaiting
    · refine .inr ⟨?_, htr, ?_⟩
      · rw [hv]
        exact hcurrent
      · rw [hv, hscheduled.str, hselected, Option.getD_some, Function.update_self]

/-- The task 0 is preempted by the task 1 and waits, while the task 2 waits too. -/
theorem tasks_preserved_preempted :
    ∃ start s, Initial start ∧ Reaches (step twoMain) BindingKept start s ∧
      s.str 0 = some 1 ∧ (board s.toLinks).tasks 1 = [2, 0] ∧
      ∀ tsc s', s.vcpuSchedule twoMain 0 tsc = .ok s' → ∀ t ∈ [2, 0],
        t ∈ (board s'.toLinks).tasks 1 ∧ 1 ∈ (board s'.toLinks).queue 0 ∨
        s'.vcpuCurrent 0 = some 1 ∧ (s'.vcpus 1).tr = some t ∧ s'.str 0 = some t := by
  have hrun : (twoMainRun [wakeupAt 0 2, scheduleAt 2, wakeupAt 1 3, wakeupAt 2 3, wakeupAt 0 4,
      scheduleAt 4]).map (fun s => (s.str 0, (board s.toLinks).tasks 1)) =
        some (some 1, [2, 0]) := by
    decide
  obtain ⟨s, hs, hview⟩ := Option.map_eq_some_iff.mp hrun
  obtain ⟨start, hstart, hreach⟩ := twoMainRun_reaches hs
  simp only [Prod.mk.injEq] at hview
  obtain ⟨hstr, htasks⟩ := hview
  obtain ⟨-, -, -, -, hkept⟩ := tasks_preserved hstart hreach
  refine ⟨start, s, hstart, hreach, hstr, htasks, ?_⟩
  intro tsc s' hstep t ht
  exact hkept 0 tsc s' hstep 1 rfl t (htasks ▸ ht)

end Quest.Sched.RunInvariants
