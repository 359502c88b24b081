import Quest.Blocking.OneQueue

/-! Runs in which the wakers name only tasks that neither run nor wait. -/
namespace Quest.Blocking.Discipline

open Lib.LinkedList Lib.Reach Sched.Hooks Sched.Queue Sched.Core Sched.Rules Sched.Refinement Function
open Model Apart OneQueue

variable {σ τ ι κ α : Type} {n : Nat} {cfg : Config σ τ n} {k k' : Kernel σ τ ι κ α n}
  {b : Board τ (Fin n) Nat} {w : WaitQueue τ ι κ → List τ} {p : Nat} {task : τ}

section Frames

structure Settled (k k' : Kernel σ τ ι κ α n) : Prop where
  str : ∀ p t, k'.sched.str p = some t → k.sched.str p = some t
  blocking : ∀ p, k'.blocking p = false → k.blocking p = false

structure SameData (k k' : Kernel σ τ ι κ α n) : Prop where
  semaphores : k'.semaphores = k.semaphores
  circulars : k'.circulars = k.circulars

theorem Settled.refl (k : Kernel σ τ ι κ α n) : Settled k k := ⟨fun _ _ => id, fun _ => id⟩

theorem SameData.refl (k : Kernel σ τ ι κ α n) : SameData k k := ⟨rfl, rfl⟩

variable {k1 k2 k3 : Kernel σ τ ι κ α n}

theorem Settled.trans (h : Settled k1 k2) (h' : Settled k2 k3) : Settled k1 k3 :=
  ⟨fun p t ht => h.str p t (h'.str p t ht), fun p hp => h.blocking p (h'.blocking p hp)⟩

theorem SameData.trans (h : SameData k1 k2) (h' : SameData k2 k3) : SameData k1 k3 :=
  ⟨h'.semaphores.trans h.semaphores, h'.circulars.trans h.circulars⟩

variable [DecidableEq τ]

theorem vcpuWakeup_str [Fintype τ] {s s' : Scheduler σ τ n} {tsc : WakeupTsc}
    (h : s.vcpuWakeup cfg p task tsc = .ok s') : s'.str = s.str := by
  obtain ⟨⟨v, s1⟩, hmake, h⟩ := bind_eq_ok.mp h
  obtain ⟨⟨u, l⟩, -, hmake⟩ := bind_eq_ok.mp hmake
  obtain ⟨server, -, hmake⟩ := bind_eq_ok.mp hmake
  cases hmake
  obtain ⟨server', -, h⟩ := bind_eq_ok.mp h
  cases h
  rw [(Sched.Budgets.preempt_unmoved cfg _ p _).str]
  rfl

variable [Fintype τ]

theorem wakeup_frame {tsc : WakeupTsc} (h : k.wakeup cfg p task tsc = .ok k') :
    Settled k k' ∧ SameData k k' := by
  obtain ⟨s', hwake, heq⟩ := bind_eq_ok.mp h
  cases heq
  refine ⟨⟨?_, fun _ => id⟩, rfl, rfl⟩
  intro p t ht
  rwa [vcpuWakeup_str hwake] at ht

theorem schedule_sameData {tsc : ScheduleTsc n} (h : k.schedule cfg p tsc = .ok k') :
    SameData k k' := by
  obtain ⟨s', -, heq⟩ := bind_eq_ok.mp h
  cases heq
  exact ⟨rfl, rfl⟩

theorem timer_sameData {wakeTsc : WakeupTsc} {tsc : ScheduleTsc n}
    (h : k.timerInterrupt cfg p wakeTsc tsc = .ok k') : SameData k k' := by
  obtain ⟨t, -, h⟩ := bind_eq_ok.mp h
  obtain ⟨k1, hwake, hsched⟩ := bind_eq_ok.mp h
  have hdata := schedule_sameData hsched
  split at hwake
  · exact .trans { (wakeup_frame hwake).2 with } hdata
  · cases hwake
    exact { hdata with }

variable [DecidableEq ι] [DecidableEq κ]

variable {q : WaitQueue τ ι κ}

theorem wait_frame (h : k.wait p q = .ok k') : Settled k k' ∧ SameData k k' := by
  obtain ⟨t, -, h⟩ := bind_eq_ok.mp h
  obtain ⟨queue, -, h⟩ := bind_eq_ok.mp h
  cases h
  refine ⟨⟨fun _ _ => id, ?_⟩, rfl, rfl⟩
  intro p' hp
  by_cases hpp : p' = p
  · simp [Kernel.setBlocking, hpp] at hp
  · simpa [Kernel.setBlocking, Kernel.setWaitq, Kernel.setNext, hpp] using hp

variable {tsc : τ → WakeupTsc}

theorem wakeupLoop_frame {fuel : Nat} (h : Kernel.wakeupLoop cfg p tsc q fuel k = .ok k') :
    Settled k k' ∧ SameData k k' ∧ k'.waitq q = none := by
  induction fuel generalizing k with
  | zero => cases h
  | succ fuel ih =>
    rw [Kernel.wakeupLoop] at h
    cases hq : k.waitq q with
    | none =>
      simp only [hq, queueRemoveHead] at h
      cases h
      exact ⟨.refl _, .refl _, hq⟩
    | some head =>
      simp only [hq, queueRemoveHead] at h
      obtain ⟨k1, hwake, hloop⟩ := bind_eq_ok.mp h
      obtain ⟨hsettled, hdata⟩ := wakeup_frame hwake
      obtain ⟨hsettled', hdata', hempty⟩ := ih hloop
      exact ⟨.trans { hsettled with } hsettled',
        .trans { hdata with } hdata', hempty⟩

theorem sleepLoop_frame {now : Nat} {fuel : Nat} {q : Option τ}
    (h : Kernel.sleepLoop cfg p now tsc fuel q task k = .ok k') : Settled k k' ∧ SameData k k' := by
  induction fuel generalizing k q task with
  | zero => cases h
  | succ fuel ih =>
    obtain ⟨⟨q1, k1⟩, hbody, h⟩ := bind_eq_ok.mp h
    have hframe : Settled k k1 ∧ SameData k k1 := by
      split at hbody
      · obtain ⟨target, -, hbody⟩ := bind_eq_ok.mp hbody
        obtain ⟨k2, hwake, hbody⟩ := bind_eq_ok.mp hbody
        cases hbody
        obtain ⟨hsettled, hdata⟩ := wakeup_frame hwake
        exact ⟨{ hsettled with }, hdata.semaphores, hdata.circulars⟩
      · cases hbody
        exact ⟨.refl _, .refl _⟩
    cases hnext : k.sched.next task with
    | none =>
      simp only [hnext] at h
      cases h
      exact hframe
    | some next =>
      simp only [hnext] at h
      obtain ⟨task', -, hloop⟩ := bind_eq_ok.mp h
      obtain ⟨hsettled, hdata⟩ := ih hloop
      exact ⟨hframe.1.trans hsettled, hframe.2.trans hdata⟩

/-! One lemma says what each operation on a semaphore or a buffer can do. -/

variable {ret : Option Int}

theorem semaphoreWait_cases {i : ι} {s : Int} (h : k.semaphoreWait p i s = .ok (ret, k')) :
    (s ≤ (k.semaphores i).s ∧ ret = some 0 ∧ k' = { k with
      semaphores :=
        update k.semaphores i { k.semaphores i with s := (k.semaphores i).s - s } }) ∨
    ((k.semaphores i).s < s ∧ ret = none ∧ k.wait p (.semaphore i) = .ok k') := by
  unfold Kernel.semaphoreWait at h
  dsimp only at h
  split at h
  · rename_i henough
    cases h
    exact .inl ⟨henough, rfl, rfl⟩
  · rename_i hfew
    obtain ⟨k1, hwait, heq⟩ := bind_eq_ok.mp h
    cases heq
    exact .inr ⟨Int.not_le.mp hfew, rfl, hwait⟩

theorem semaphoreSignal_cases {i : ι} {s status : Int}
    (h : k.semaphoreSignal cfg p i s tsc = .ok (status, k')) :
    Settled k k' ∧ k'.circulars = k.circulars ∧ k'.waitq (.semaphore i) = none ∧
      k'.semaphores = update k.semaphores i
        { k.semaphores i with s := min (k.semaphores i).max ((k.semaphores i).s + s) } ∧
      (status = if (k.semaphores i).max < (k.semaphores i).s + s then -1 else 0) := by
  obtain ⟨k1, hwake, heq⟩ := bind_eq_ok.mp h
  cases heq
  obtain ⟨hsettled, hdata, hempty⟩ := wakeupLoop_frame hwake
  refine ⟨{ hsettled with }, hdata.circulars, hempty, ?_, by simp⟩
  rw [hdata.semaphores]
  by_cases hover : (k.semaphores i).max < (k.semaphores i).s + s
  · simp [hover, min_eq_left hover.le]
  · simp [hover, min_eq_right (Int.not_lt.mp hover)]

variable {nowait : Bool}

theorem circularInsert_cases {c : κ} {elt : α}
    (h : k.genericCircularInsert cfg p c elt nowait tsc = .ok (ret, k')) :
    ((k.circulars c).curCount = (k.circulars c).numElts ∧
      (nowait = true ∧ ret = some (-1) ∧ k' = k ∨
        nowait = false ∧ ret = none ∧ k.wait p (.insWaitq c) = .ok k')) ∨
    ((k.circulars c).curCount ≠ (k.circulars c).numElts ∧ Settled k k' ∧
      k'.semaphores = k.semaphores ∧ k'.waitq (.remWaitq c) = none ∧
      ret = some (((k.circulars c).curCount + 1 : Nat) : Int) ∧
      k'.circulars = update k.circulars c { k.circulars c with
        buffer := update (k.circulars c).buffer (k.circulars c).insertPtr elt
        insertPtr := if (k.circulars c).numElts ≤ (k.circulars c).insertPtr + 1 then 0
          else (k.circulars c).insertPtr + 1
        curCount := (k.circulars c).curCount + 1 }) := by
  obtain ⟨hunready, h | ⟨hwaits, hret, k1, hwait, rfl⟩⟩ | ⟨hready, hret, k1, hwake, rfl⟩ :=
    nowait_cases h
  · exact .inl ⟨hunready, .inl h⟩
  · exact .inl ⟨hunready, .inr ⟨hwaits, hret, hwait⟩⟩
  · obtain ⟨hsettled, hdata, hempty⟩ := wakeupLoop_frame hwake
    exact .inr ⟨hready, { hsettled with }, hdata.semaphores, hempty, hret,
      hdata.circulars⟩

theorem circularRemove_cases {c : κ} {ret : Option (Int × Option α)}
    (h : k.genericCircularRemove cfg p c nowait tsc = .ok (ret, k')) :
    ((k.circulars c).curCount = 0 ∧
      (nowait = true ∧ ret = some (-1, none) ∧ k' = k ∨
        nowait = false ∧ ret = none ∧ k.wait p (.remWaitq c) = .ok k')) ∨
    ((k.circulars c).curCount ≠ 0 ∧ Settled k k' ∧
      k'.semaphores = k.semaphores ∧ k'.waitq (.insWaitq c) = none ∧
      ret = some ((((k.circulars c).curCount - 1 : Nat) : Int),
        some ((k.circulars c).buffer (k.circulars c).removePtr)) ∧
      k'.circulars = update k.circulars c { k.circulars c with
        removePtr := if (k.circulars c).numElts ≤ (k.circulars c).removePtr + 1 then 0
          else (k.circulars c).removePtr + 1
        curCount := (k.circulars c).curCount - 1 }) := by
  obtain ⟨hunready, h | ⟨hwaits, hret, k1, hwait, rfl⟩⟩ | ⟨hready, hret, k1, hwake, rfl⟩ :=
    nowait_cases h
  · exact .inl ⟨hunready, .inl h⟩
  · exact .inl ⟨hunready, .inr ⟨hwaits, hret, hwait⟩⟩
  · obtain ⟨hsettled, hdata, hempty⟩ := wakeupLoop_frame hwake
    exact .inr ⟨hready, { hsettled with }, hdata.semaphores, hempty, hret,
      hdata.circulars⟩

theorem circularInsert_semaphores {c : κ} {elt : α}
    (h : k.genericCircularInsert cfg p c elt nowait tsc = .ok (ret, k')) :
    k'.semaphores = k.semaphores := by
  rcases circularInsert_cases h with ⟨-, ⟨-, -, rfl⟩ | ⟨-, -, hwait⟩⟩ | ⟨-, -, hsame, -⟩
  · rfl
  · exact (wait_frame hwait).2.semaphores
  · exact hsame

theorem circularRemove_semaphores {c : κ} {ret : Option (Int × Option α)}
    (h : k.genericCircularRemove cfg p c nowait tsc = .ok (ret, k')) :
    k'.semaphores = k.semaphores := by
  rcases circularRemove_cases h with ⟨-, ⟨-, -, rfl⟩ | ⟨-, -, hwait⟩⟩ | ⟨-, -, hsame, -⟩
  · rfl
  · exact (wait_frame hwait).2.semaphores
  · exact hsame

theorem waitpid_cases {pid : τ} (h : k.waitpid p pid = .ok (ret, k')) :
    k.wait p (.exit pid) = .ok k' ∨ k' = k := by
  unfold Kernel.waitpid at h
  split at h
  · obtain ⟨k1, hwait, heq⟩ := bind_eq_ok.mp h
    cases heq
    exact .inl hwait
  · cases h
    exact .inr rfl

def usesData : Event τ ι κ α n → Bool
  | .semaphoreWait _ _ _ | .semaphoreSignal _ _ _ _ => true
  | .circularInsert _ _ _ _ _ | .circularRemove _ _ _ _ => true
  | _ => false

theorem processSleepqueue_frame {now : Nat} (h : k.processSleepqueue cfg p now tsc = .ok k')
    : Settled k k' ∧ SameData k k' := by
  unfold Kernel.processSleepqueue at h
  split at h
  · cases h
    exact ⟨.refl _, .refl _⟩
  · exact sleepLoop_frame h

theorem exit_frame (h : k.exit cfg p tsc = .ok k') : Settled k k' ∧ SameData k k' := by
  obtain ⟨t, -, h⟩ := bind_eq_ok.mp h
  obtain ⟨k1, hwake, h⟩ := bind_eq_ok.mp h
  cases h
  obtain ⟨hsettled, hdata, -⟩ := wakeupLoop_frame hwake
  refine ⟨⟨?_, ?_⟩, hdata.semaphores, hdata.circulars⟩
  · intro p' x hx
    have hbefore := hsettled.str p' x hx
    by_cases hp : p' = p
    · simp [hp] at hbefore
    · simpa [hp] using hbefore
  · intro p' hrun
    by_cases hp : p' = p
    · simp [Kernel.setBlocking, hp] at hrun
    · exact hsettled.blocking p' (by simpa [Kernel.setBlocking, hp] using hrun)

theorem step_sameData {event : Event τ ι κ α n} (hevent : usesData event = false)
    (h : step cfg k event = .ok k') : SameData k k' := by
  cases event with
  | wakeup p task tsc => exact (wakeup_frame h).2
  | jobWakeup p job T tsc =>
    obtain ⟨servers, hwake⟩ := jobWakeup_cases h
    exact { (wakeup_frame hwake).2 with }
  | schedule p tsc => exact schedule_sameData h
  | timer p wakeTsc tsc => exact timer_sameData h
  | usleep p usec start =>
    obtain ⟨sel, -, hwait⟩ := bind_eq_ok.mp h
    exact { (wait_frame hwait).2 with }
  | processSleepqueue p now tsc => exact (processSleepqueue_frame h).2
  | waitpid p pid =>
    obtain ⟨⟨ret, k1⟩, hwaitpid, rfl⟩ := map_eq_ok.mp h
    rcases waitpid_cases hwaitpid with hwait | rfl
    · exact (wait_frame hwait).2
    · exact .refl _
  | exit p tsc => exact (exit_frame h).2
  | _ => cases hevent

theorem step_settled {event : Event τ ι κ α n} (hevent : scheduled event = none)
    (h : step cfg k event = .ok k') : Settled k k' := by
  cases event with
  | wakeup p task tsc => exact (wakeup_frame h).1
  | jobWakeup p job T tsc =>
    obtain ⟨servers, hwake⟩ := jobWakeup_cases h
    exact { (wakeup_frame hwake).1 with }
  | usleep p usec start =>
    obtain ⟨sel, -, hwait⟩ := bind_eq_ok.mp h
    exact { (wait_frame hwait).1 with }
  | processSleepqueue p now tsc => exact (processSleepqueue_frame h).1
  | semaphoreWait p i s =>
    obtain ⟨⟨ret, k1⟩, hwait, rfl⟩ := map_eq_ok.mp h
    rcases semaphoreWait_cases hwait with ⟨-, -, rfl⟩ | ⟨-, -, hwait⟩
    · exact ⟨fun _ _ => id, fun _ => id⟩
    · exact (wait_frame hwait).1
  | semaphoreSignal p i s tsc =>
    obtain ⟨⟨ret, k1⟩, hsignal, rfl⟩ := map_eq_ok.mp h
    exact (semaphoreSignal_cases hsignal).1
  | circularInsert p c elt nowait tsc =>
    obtain ⟨⟨ret, k1⟩, hins, rfl⟩ := map_eq_ok.mp h
    rcases circularInsert_cases hins with ⟨-, ⟨-, -, rfl⟩ | ⟨-, -, hwait⟩⟩ | ⟨-, hsettled, -⟩
    · exact .refl _
    · exact (wait_frame hwait).1
    · exact hsettled
  | circularRemove p c nowait tsc =>
    obtain ⟨⟨ret, k1⟩, hrem, rfl⟩ := map_eq_ok.mp h
    rcases circularRemove_cases hrem with ⟨-, ⟨-, -, rfl⟩ | ⟨-, -, hwait⟩⟩ | ⟨-, hsettled, -⟩
    · exact .refl _
    · exact (wait_frame hwait).1
    · exact hsettled
  | waitpid p pid =>
    obtain ⟨⟨ret, k1⟩, hwaitpid, rfl⟩ := map_eq_ok.mp h
    rcases waitpid_cases hwaitpid with hwait | rfl
    · exact (wait_frame hwait).1
    · exact .refl _
  | exit p tsc => exact (exit_frame h).1
  | _ => cases hevent

end Frames

section Invariant

/-- A waker names a task that neither runs nor waits, and no idle task. -/
def Awaited [Fintype τ] (cfg : Config σ τ n) (k : Kernel σ τ ι κ α n) (event : Event τ ι κ α n) :
    Prop :=
  ∀ t ∈ named event, (∀ v, k.sched.str (cfg.cpu v) ≠ some t) ∧
    (∀ q, t ∉ members k (.inr q)) ∧ ¬IsIdle cfg t

instance [DecidableEq τ] [Fintype τ] [Fintype ι] [Fintype κ] [DecidablePred (IsIdle cfg)]
    (k : Kernel σ τ ι κ α n) (event : Event τ ι κ α n) : Decidable (Awaited cfg k event) := by
  unfold Awaited
  exact inferInstance

/-- The task of a PCPU is on a runqueue only when it is about to call `schedule`,
and the idle tasks are on no runqueue. -/
structure Orderly (cfg : Config σ τ n) (k : Kernel σ τ ι κ α n) (b : Board τ (Fin n) Nat)
    (w : WaitQueue τ ι κ → List τ) : Prop extends Separate cfg k b w where
  fresh : ∀ p t, k.sched.str p = some t → k.blocking p = false → ∀ v, t ∉ b.tasks v
  idleOff : ∀ p v, cfg.idleTss p ∉ b.tasks v
  ordinary : ∀ p t, k.sched.str p = some t → t = cfg.idleTss p ∨ ¬IsIdle cfg t

theorem Orderly.unique (h : Orderly cfg k b w) {p' : Nat} (hstr : k.sched.str p = some task)
    (hstr' : k.sched.str p' = some task) (hidle : task ≠ cfg.idleTss p) : p' = p := by
  rcases h.ordinary p task hstr with heq | hordinary
  · exact absurd heq hidle
  · rcases h.homed p' task hstr' with heq | ⟨v', hv', hcpu'⟩
    · exact absurd ⟨p', heq.symm⟩ hordinary
    · rcases h.homed p task hstr with heq | ⟨v, hv, hcpu⟩
      · exact absurd heq hidle
      · have hsame : v' = v := Fin.ext (hv'.symm.trans hv)
        rw [← hcpu', ← hcpu, hsame]

theorem orderly_of_settled {b' : Board τ (Fin n) Nat} {w' : WaitQueue τ ι κ → List τ}
    (h : Orderly cfg k b w) (hsep : Separate cfg k' b' w') (hsettled : Settled k k')
    (hnew : ∀ t v, t ∈ b'.tasks v → t ∈ b.tasks v ∨
      ((∀ v, k.sched.str (cfg.cpu v) ≠ some t) ∧ ¬IsIdle cfg t) ∨ ∃ q, t ∈ w q) :
    Orderly cfg k' b' w' := by
  refine ⟨hsep, ?_, ?_, ?_⟩
  · intro p t ht hrun v hv
    have hbefore := hsettled.str p t ht
    rcases hnew t v hv with hold | ⟨hnot, hordinary⟩ | ⟨q, hq⟩
    · exact h.fresh p t hbefore (hsettled.blocking p hrun) v hold
    · rcases h.homed p t hbefore with heq | ⟨u, -, rfl⟩
      · exact hordinary ⟨p, heq.symm⟩
      · exact hnot u hbefore
    · exact h.running p t hbefore (hsettled.blocking p hrun) q hq
  · intro p v hv
    rcases hnew _ v hv with hold | ⟨-, hordinary⟩ | ⟨q, hq⟩
    · exact h.idleOff p v hold
    · exact hordinary ⟨p, rfl⟩
    · exact h.idle p q hq
  · exact fun p t ht => h.ordinary p t (hsettled.str p t ht)

variable {event : Event τ ι κ α n}

theorem calls_of_blocks {x : Nat × WaitQueue τ ι κ} (hlegal : Legal cfg k event)
    (hblocks : blocks k event = some x) : Calls cfg k x.1 := by
  cases event with
  | usleep p usec start =>
    cases hblocks
    exact hlegal
  | semaphoreWait p i s =>
    simp only [blocks, Option.ite_none_left_eq_some, Option.some.injEq] at hblocks
    rw [← hblocks.2]
    exact hlegal
  | circularInsert p c elt nowait tsc | circularRemove p c nowait tsc | waitpid p pid =>
    simp only [blocks, Option.ite_none_right_eq_some, Option.some.injEq] at hblocks
    rw [← hblocks.2]
    exact hlegal
  | _ => cases hblocks

variable [Fintype τ]

theorem Orderly.undisturbed (h : Orderly cfg k b w) (hlegal : Legal cfg k event)
    (hawait : Awaited cfg k event) : Undisturbed k event := by
  refine ⟨fun t ht => (hawait t ht).2.1, ?_⟩
  intro x hx t ht v
  have hcalls := calls_of_blocks hlegal hx
  rw [h.members_eq]
  exact h.fresh x.1 t ht hcalls.1 v

variable [DecidableEq τ]

variable {tsc : ScheduleTsc n}

theorem schedule_orderly (h : Separate cfg k b w)
    (hfresh : ∀ p' t, p' ≠ p → k.sched.str p' = some t → k.blocking p' = false → ∀ v, t ∉ b.tasks v)
    (hidleOff : ∀ p v, cfg.idleTss p ∉ b.tasks v)
    (hordinary : ∀ p t, k.sched.str p = some t → t = cfg.idleTss p ∨ ¬IsIdle cfg t)
    (hstep : k.schedule cfg p tsc = .ok k') : ∃ b', Orderly cfg k' b' w := by
  obtain ⟨b', selected, hrule, hsep, hstr, hblock⟩ := schedule_separate h hstep
  have hboard := h.sound.consistent
  have hsub : ∀ v t, t ∈ b'.tasks v → t ∈ b.tasks v :=
    fun v t => schedule_tasks_subset hboard hrule
  refine ⟨b', hsep, ?_, ?_, ?_⟩
  · intro p' t ht hrun v hv
    rw [hstr] at ht
    rw [hblock] at hrun
    by_cases hp : p' = p
    · subst hp
      rw [update_self, Option.some.injEq] at ht
      cases hrule with
      | idle =>
        rw [← ht] at hv
        exact hidleOff p' v hv
      | @pick u x rest hu hx hrest =>
        subst ht
        have hvu : v = u := hboard.once v u x (hsub v x hv) hx
        subst hvu
        dsimp only [Board.pick] at hv
        rw [update_self, (hboard.distinct v).mem_erase_iff] at hv
        exact hv.1 rfl
    · rw [update_of_ne hp] at ht hrun
      exact hfresh p' t hp ht hrun v (hsub v t hv)
  · exact fun p' v hv => hidleOff p' v (hsub v _ hv)
  · intro p' t ht
    rw [hstr] at ht
    by_cases hp : p' = p
    · subst hp
      rw [update_self, Option.some.injEq] at ht
      cases hrule with
      | idle => exact .inl ht.symm
      | @pick u x rest hu hx hrest =>
        subst ht
        refine .inr ?_
        rintro ⟨q, rfl⟩
        exact hidleOff q u hx
    · rw [update_of_ne hp] at ht
      exact hordinary p' t ht

theorem timer_orderly {wakeTsc : WakeupTsc} (h : Orderly cfg k b w)
    (hrun : k.blocking p = false) (hstep : k.timerInterrupt cfg p wakeTsc tsc = .ok k') :
    ∃ b', Orderly cfg k' b' w := by
  obtain ⟨task, htask, hstep⟩ := bind_eq_ok.mp hstep
  obtain ⟨k2, hwake, hsched⟩ := bind_eq_ok.mp hstep
  have hstr : k.sched.str p = some task := deref_eq_ok.mp htask
  have hstart : Separate cfg
      { k with sched := k.sched.startTimer p (cfg.cpuBusFreq / quantumHz) } b w :=
    h.weaken rfl rfl rfl (fun _ _ => id) fun _ => id
  split at hwake
  · rename_i hidle
    have hfree := h.running p task hstr hrun
    obtain ⟨v, hsep, hstr2, hblock2⟩ := wakeup_separate hstart hfree hwake
    have hsame : k2.sched.str = k.sched.str := hstr2
    refine schedule_orderly hsep ?_ ?_ ?_ hsched
    · intro p' t hp ht hnot u hu
      rw [hsame] at ht
      rw [hblock2] at hnot
      rcases mem_wake_tasks.mp hu with hold | ⟨-, rfl⟩
      · exact h.fresh p' t ht hnot u hold
      · exact hp (h.unique hstr ht hidle)
    · intro p' u hu
      rcases mem_wake_tasks.mp hu with hold | ⟨-, heq⟩
      · exact h.idleOff p' u hold
      · rcases h.ordinary p task hstr with rfl | hordinary
        · exact hidle rfl
        · exact hordinary ⟨p', heq⟩
    · rw [hsame]
      exact h.ordinary
  · cases hwake
    exact schedule_orderly hstart (fun p' t _ => h.fresh p' t) h.idleOff h.ordinary hsched

variable [DecidableEq ι] [DecidableEq κ]

variable {q : WaitQueue τ ι κ}

def Released (w : WaitQueue τ ι κ → List τ) : Move τ ι κ n → Prop
  | .transfer (.inr q) (.inl _) t => t ∈ w q
  | _ => False

section

variable (h : Orderly cfg k b w)
include h

theorem wait_orderly (hcalls : Calls cfg k p) (hstep : k.wait p q = .ok k')
    :
    ∃ t, k.sched.str p = some t ∧
      Orderly cfg k' b (update w q (appendAbsent (w q) t)) := by
  obtain ⟨t, ht, -⟩ := bind_eq_ok.mp hstep
  have hstr := deref_eq_ok.mp ht
  have hidle : ∀ p, cfg.idleTss p ≠ t := fun p hp => hcalls.2 t hstr ⟨p, hp⟩
  have hsep := wait_separate h.toSeparate hstr hcalls.1 (h.fresh p t hstr hcalls.1) hidle hstep
  exact ⟨t, hstr, orderly_of_settled h hsep (wait_frame hstep).1 fun _ _ => .inl⟩

theorem wakeupQueue_orderly {tsc : τ → WakeupTsc}
    (hstep : k.wakeupQueue cfg p q tsc = .ok k') :
    ∃ b' w', Orderly cfg k' b' w' ∧ ∀ q', ∀ t ∈ w' q', t ∈ w q' := by
  have hmoved : Moved cfg (Released w) (Sum.elim b.tasks w) k' :=
    wakeupLoop_moved h.toSeparate .refl (fun t ht v => ht) hstep
  obtain ⟨b', w', hsep, hmoves⟩ := hmoved
  refine ⟨b', w', orderly_of_settled h hsep (wakeupLoop_frame hstep).1 ?_, ?_⟩
  · intro t v ht
    rcases hmoves.mem (q := .inl v) ht with hold | hjoin | ⟨q', htrans⟩
    · exact .inl hold
    · exact hjoin.elim
    · cases q' with
      | inl u => exact htrans.elim
      | inr q' => exact .inr (.inr ⟨q', htrans⟩)
  · intro q' t ht
    rcases hmoves.mem (q := .inr q') ht with hold | hjoin | ⟨q'', htrans⟩
    · exact hold
    · exact hjoin.elim
    · cases q'' <;> exact htrans.elim

theorem step_orderly (hlegal : Legal cfg k event)
    (hawait : Awaited cfg k event) (hstep : step cfg k event = .ok k') :
    ∃ b' w', Orderly cfg k' b' w' := by
  cases hsched : scheduled event with
  | some p =>
    cases event with
    | schedule p tsc =>
      obtain ⟨b', h'⟩ :=
        schedule_orderly h.toSeparate (fun p' t _ => h.fresh p' t) h.idleOff h.ordinary hstep
      exact ⟨b', w, h'⟩
    | timer p wakeTsc tsc =>
      obtain ⟨b', h'⟩ := timer_orderly h hlegal hstep
      exact ⟨b', w, h'⟩
    | _ => cases hsched
  | none =>
    obtain ⟨b', w', hsep, hmoves⟩ :=
      step_moved h.toSeparate hlegal (h.undisturbed hlegal hawait) hstep
    have hrequeued : requeued cfg k event = named event := by
      cases event with
      | timer p wakeTsc tsc => cases hsched
      | _ => rfl
    refine ⟨b', w', orderly_of_settled h hsep (step_settled hsched hstep) ?_⟩
    intro t v ht
    rcases hmoves.mem (q := .inl v) ht with hold | hjoin | ⟨q', htrans⟩
    · exact .inl hold
    · obtain ⟨hnot, -, hordinary⟩ := hawait t (hrequeued ▸ hjoin)
      exact .inr (.inl ⟨hnot, hordinary⟩)
    · cases q' with
      | inl u => exact htrans.elim
      | inr q =>
        have hmem := htrans.2.1
        rw [h.members_eq] at hmem
        exact .inr (.inr ⟨q, hmem⟩)

theorem step_waiting (hlegal : Legal cfg k event)
    (hawait : Awaited cfg k event) (hstep : step cfg k event = .ok k')
    (htask : task ∈ members k' (.inr q)) :
    task ∈ members k (.inr q) ∨ ∃ p, blocks k event = some (p, q) ∧ k.sched.str p = some task := by
  obtain ⟨b', w', hsep, hmoves⟩ :=
    step_moved h.toSeparate hlegal (h.undisturbed hlegal hawait) hstep
  rw [hsep.members_eq] at htask
  rw [h.members_eq]
  rcases hmoves.mem htask with hold | hjoin | ⟨q', htrans⟩
  · exact .inl hold
  · exact .inr hjoin
  · cases q' <;> exact htrans.elim

end

omit [DecidableEq τ] [DecidableEq ι] [DecidableEq κ] in
theorem members_empty (h : k.waitq q = none) : members k (.inr q) = [] :=
  toList_eq h

end Invariant

section Runs

/-- The order of the code, and wakers that keep to tasks that neither run nor wait. -/
def Kept [Fintype τ] (cfg : Config σ τ n) (k : Kernel σ τ ι κ α n) (event : Event τ ι κ α n) :
    Prop := Legal cfg k event ∧ Awaited cfg k event

instance [DecidableEq τ] [Fintype τ] [Fintype ι] [Fintype κ] [DecidablePred (IsIdle cfg)]
    (k : Kernel σ τ ι κ α n) (event : Event τ ι κ α n) : Decidable (Kept cfg k event) := by
  unfold Kept
  exact inferInstance

structure Boot (cfg : Config σ τ n) (k : Kernel σ τ ι κ α n) : Prop extends Initial cfg k where
  ordinary : ∀ p t, k.sched.str p = some t → t = cfg.idleTss p ∨ ¬IsIdle cfg t

theorem orderly_boot [Fintype τ] (h : Boot cfg k) :
    Orderly cfg k (board k.sched.toLinks) fun _ => [] := by
  have htasks : ∀ v, (board k.sched.toLinks).tasks v = [] := by
    intro v
    exact toList_eq (h.sched.runqueue v)
  refine ⟨separate_initial h.toInitial, ?_, ?_, h.ordinary⟩
  · intro p t _ _ v
    rw [htasks]
    exact List.not_mem_nil
  · intro p v
    rw [htasks]
    exact List.not_mem_nil

end Runs

theorem oneIoBoot_boot : Boot oneIo oneIoBoot where
  toInitial := oneIoBoot_initial
  ordinary _ _ h := absurd h (Option.some_ne_none _).symm

end Quest.Blocking.Discipline
