import Quest.Blocking.Apart
import Quest.Sched.Pibs
import Quest.Sched.RunInvariants

/-! A task is on one queue at most, as long as no waker names a task that is on a wait queue, and
no task blocks that is on a runqueue again. -/
namespace Quest.Blocking.OneQueue

open Lib.LinkedList Lib.Reach Sched.Hooks Sched.Queue Sched.Core Sched.Rules Sched.Refinement Function
open Model Apart

variable {σ τ ι κ α : Type} {n : Nat} {cfg : Config σ τ n} {k k' : Kernel σ τ ι κ α n}
  {b : Board τ (Fin n) Nat} {w : WaitQueue τ ι κ → List τ} {p : Nat} {task : τ}

/-! What an event does, as far as the state before it tells. -/

section Events

def named : Event τ ι κ α n → Option τ
  | .wakeup _ task _ => some task
  | .jobWakeup _ job _ _ => some job
  | _ => none

/-- The task that an event puts on its runqueue: the one that a waker names, or
the one that the timer interrupt preempts. -/
def requeued [DecidableEq τ] (cfg : Config σ τ n) (k : Kernel σ τ ι κ α n) :
    Event τ ι κ α n → Option τ
  | .timer p _ _ => (k.sched.str p).filter (· ≠ cfg.idleTss p)
  | event => named event

def scheduled : Event τ ι κ α n → Option Nat
  | .schedule p _ => some p
  | .timer p _ _ => some p
  | _ => none

def blocks (k : Kernel σ τ ι κ α n) : Event τ ι κ α n → Option (Nat × WaitQueue τ ι κ)
  | .usleep p _ _ => some (p, .sleepqueue)
  | .semaphoreWait p i s => if s ≤ (k.semaphores i).s then none else some (p, .semaphore i)
  | .circularInsert p c _ nowait _ =>
      if (k.circulars c).curCount = (k.circulars c).numElts ∧ nowait = false then
        some (p, .insWaitq c)
      else none
  | .circularRemove p c nowait _ =>
      if (k.circulars c).curCount = 0 ∧ nowait = false then some (p, .remWaitq c) else none
  | .waitpid p pid => if k.live pid then some (p, .exit pid) else none
  | _ => none

def releases (k : Kernel σ τ ι κ α n) : Event τ ι κ α n → Option (WaitQueue τ ι κ)
  | .processSleepqueue _ _ _ => some .sleepqueue
  | .semaphoreSignal _ i _ _ => some (.semaphore i)
  | .circularInsert _ c _ _ _ =>
      if (k.circulars c).curCount = (k.circulars c).numElts then none else some (.remWaitq c)
  | .circularRemove _ c _ _ => if (k.circulars c).curCount = 0 then none else some (.insWaitq c)
  | .exit p _ => (k.sched.str p).map .exit
  | _ => none

def Due (k : Kernel σ τ ι κ α n) (t : τ) : Event τ ι κ α n → Prop
  | .processSleepqueue _ now _ => k.time t ≤ now
  | _ => True

def IsIdle (cfg : Config σ τ n) (t : τ) : Prop := ∃ p, cfg.idleTss p = t

def Calls (cfg : Config σ τ n) (k : Kernel σ τ ι κ α n) (p : Nat) : Prop :=
  k.blocking p = false ∧ ∀ t ∈ k.sched.str p, ¬IsIdle cfg t

/-- A task that went on a wait queue calls `schedule` before anything else happens on its PCPU,
and the idle tasks make no calls. -/
def Legal (cfg : Config σ τ n) (k : Kernel σ τ ι κ α n) : Event τ ι κ α n → Prop
  | .schedule _ _ => True
  | .wakeup p _ _ => k.blocking p = false
  | .jobWakeup p _ _ _ => k.blocking p = false
  | .timer p _ _ => k.blocking p = false
  | .processSleepqueue p _ _ => k.blocking p = false
  | .semaphoreSignal p _ _ _ => k.blocking p = false
  | .usleep p _ _ => Calls cfg k p
  | .semaphoreWait p _ _ => Calls cfg k p
  | .circularInsert p _ _ _ _ => Calls cfg k p
  | .circularRemove p _ _ _ => Calls cfg k p
  | .waitpid p _ => Calls cfg k p
  | .exit p _ => Calls cfg k p

instance [DecidablePred (IsIdle cfg)] (k : Kernel σ τ ι κ α n) (event : Event τ ι κ α n) :
    Decidable (Legal cfg k event) := by
  unfold Legal Calls
  cases event <;> exact inferInstance

variable [Fintype τ]

/-- A waker names no task that is on a wait queue, and no task blocks that is on a
runqueue. -/
def Undisturbed (k : Kernel σ τ ι κ α n) (event : Event τ ι κ α n) : Prop :=
  (∀ t ∈ named event, ∀ q, t ∉ members k (.inr q)) ∧
    ∀ x ∈ blocks k event, ∀ t ∈ k.sched.str x.1, ∀ v, t ∉ members k (.inl v)

instance [DecidableEq τ] [Fintype ι] [Fintype κ] (k : Kernel σ τ ι κ α n)
    (event : Event τ ι κ α n) : Decidable (Undisturbed k event) := by
  unfold Undisturbed
  exact inferInstance

def Permitted [DecidableEq τ] (cfg : Config σ τ n) (k k' : Kernel σ τ ι κ α n)
    (event : Event τ ι κ α n) : Move τ ι κ n → Prop
  | .join (.inl _) t => requeued cfg k event = some t
  | .join (.inr q) t => ∃ p, blocks k event = some (p, q) ∧ k.sched.str p = some t
  | .leave (.inl v) t => scheduled event = some (cfg.cpu v) ∧ k'.sched.str (cfg.cpu v) = some t
  | .transfer (.inr q) (.inl _) t =>
      releases k event = some q ∧ t ∈ members k (.inr q) ∧ Due k t event
  | _ => False

end Events

section Step

variable [DecidableEq τ] [DecidableEq ι] [DecidableEq κ] [Fintype τ]
  {permitted : Move τ ι κ n → Prop} {event : Event τ ι κ α n}

variable {k1 : Kernel σ τ ι κ α n} {q : WaitQueue τ ι κ}

theorem wait_moved (h : Separate cfg k b w) (hcalls : Calls cfg k p)
    (hquiet : Undisturbed k event) (hstep : k1.wait p q = .ok k') (h1 : Separate cfg k1 b w)
    (hstr : k1.sched.str = k.sched.str) (hblock : k1.blocking = k.blocking)
    (hblocks : blocks k event = some (p, q)) :
    Moved cfg (Permitted cfg k k' event) (Sum.elim b.tasks w) k' := by
  obtain ⟨task, htask, -⟩ := bind_eq_ok.mp hstep
  cases hrun : k1.sched.str p with
  | none =>
    rw [hrun] at htask
    cases htask
  | some t =>
    have ht : k.sched.str p = some t := hstr ▸ hrun
    have hfree := hquiet.2 (p, q) hblocks t ht
    rw [h.members_eq] at hfree
    have hidle : ∀ p, cfg.idleTss p ≠ t := fun p hp => hcalls.2 t ht ⟨p, hp⟩
    refine ⟨b, _, wait_separate h1 hrun (hblock ▸ hcalls.1) hfree hidle hstep, ?_⟩
    rw [wait_eq_join]
    exact .one ⟨p, hblocks, ht⟩

variable {tsc : τ → WakeupTsc}

theorem wakeupQueue_moved {k2 : Kernel σ τ ι κ α n} (h : Separate cfg k b w)
    (hstep : k1.wakeupQueue cfg p q tsc = .ok k2) (h1 : Separate cfg k1 b w)
    (hreleases : releases k event = some q) (hdue : ∀ t, Due k t event)
    : Moved cfg (Permitted cfg k k' event) (Sum.elim b.tasks w) k2 := by
  apply wakeupLoop_moved h1 .refl _ hstep
  intro t ht v
  refine ⟨hreleases, ?_, hdue t⟩
  rw [h.members_eq]
  exact ht

theorem wakeup_moved {tsc : WakeupTsc} (h : Separate cfg k b w) (hquiet : Undisturbed k event)
    (hstep : k1.wakeup cfg p task tsc = .ok k') (h1 : Separate cfg k1 b w)
    (hnamed : named event = some task) (hrequeued : requeued cfg k event = some task) :
    Moved cfg (Permitted cfg k k' event) (Sum.elim b.tasks w) k' := by
  have hfree := hquiet.1 task hnamed
  rw [h.members_eq] at hfree
  obtain ⟨v, hsep, -, -⟩ := wakeup_separate h1 hfree hstep
  refine ⟨_, w, hsep, ?_⟩
  rw [wake_eq_join]
  exact .one hrequeued

theorem schedule_moved {tsc : ScheduleTsc n} {nodes : QueueName τ ι κ n → List τ}
    (hstep : k1.schedule cfg p tsc = .ok k') (h1 : Separate cfg k1 b w)
    (hmoves : Moves (Permitted cfg k k' event) nodes (Sum.elim b.tasks w))
    (hsched : scheduled event = some p) : Moved cfg (Permitted cfg k k' event) nodes k' := by
  obtain ⟨b', selected, hrule, hsep, hstr, -⟩ := schedule_separate h1 hstep
  refine ⟨b', w, hsep, ?_⟩
  cases hrule with
  | idle => exact hmoves
  | @pick v t rest hv ht hrest =>
    obtain ⟨rfl, -⟩ := (h1.sound.consistent.queued p v).mp hv
    have hperm : Permitted cfg k k' event (.leave (.inl v) t) := by
      refine ⟨hsched, ?_⟩
      rw [hstr, update_self, Option.getD_some]
    rw [pick_eq_leave]
    exact hmoves.tail hperm rfl

theorem timer_moved {wakeTsc : WakeupTsc} {tsc : ScheduleTsc n} (h : Separate cfg k b w)
    (hrunning : k.blocking p = false) (hstep : k.timerInterrupt cfg p wakeTsc tsc = .ok k') :
    Moved cfg (Permitted cfg k k' (.timer p wakeTsc tsc)) (Sum.elim b.tasks w) k' := by
  obtain ⟨task, htask, hstep⟩ := bind_eq_ok.mp hstep
  obtain ⟨k2, hwake, hsched⟩ := bind_eq_ok.mp hstep
  have hstart : Separate cfg
      { k with sched := k.sched.startTimer p (cfg.cpuBusFreq / quantumHz) } b w :=
    h.weaken rfl rfl rfl (fun _ _ => id) fun _ => id
  split at hwake
  · rename_i hidle
    have hstr : k.sched.str p = some task := by
      cases hrun : k.sched.str p with
      | none => simp [Scheduler.startTimer, hrun, deref] at htask
      | some t => simpa [Scheduler.startTimer, hrun] using htask
    have hfree := h.running p task hstr hrunning
    obtain ⟨v, hsep, -, -⟩ := wakeup_separate hstart hfree hwake
    apply schedule_moved hsched hsep _ rfl
    rw [wake_eq_join]
    apply Moves.one
    simp [Permitted, requeued, hstr, hidle]
  · cases hwake
    exact schedule_moved hsched hstart .refl rfl

omit [DecidableEq ι] [DecidableEq κ] in
theorem jobWakeup_cases {T : Nat} {tsc : WakeupTsc}
    (hstep : k.jobWakeup cfg p task T tsc = .ok k') :
    ∃ servers, { k with sched := { k.sched with servers := servers } }.wakeup cfg p task tsc =
      .ok k' := by
  obtain ⟨s', hjob, heq⟩ := bind_eq_ok.mp hstep
  obtain ⟨v, -, hwake⟩ := bind_eq_ok.mp hjob
  dsimp only at hwake
  split at hwake
  · exact ⟨_, bind_eq_ok.mpr ⟨s', hwake, heq⟩⟩
  · exact ⟨k.sched.servers, bind_eq_ok.mpr ⟨s', hwake, heq⟩⟩

variable (h : Separate cfg k b w)
include h

theorem processSleepqueue_moved {now : Nat}
    (hstep : k.processSleepqueue cfg p now tsc = .ok k') :
    Moved cfg (Permitted cfg k k' (.processSleepqueue p now tsc)) (Sum.elim b.tasks w) k' := by
  have hchain := h.waits.chain .sleepqueue
  unfold Kernel.processSleepqueue at hstep
  cases hsleep : w .sleepqueue with
  | nil =>
    rw [hsleep, chain_nil] at hchain
    rw [hchain] at hstep
    cases hstep
    exact ⟨b, w, h, .refl⟩
  | cons t rest =>
    rw [hsleep] at hchain
    rw [hchain.1] at hstep
    have hfirst : w .sleepqueue = [] ++ t :: rest := hsleep
    apply sleepLoop_moved h .refl hfirst _ hstep
    intro x hx hdue v
    refine ⟨rfl, ?_, hdue⟩
    rw [h.members_eq, Sum.elim_inr, hsleep]
    exact hx

theorem semaphoreWait_moved {i : ι} {s ret} (hcalls : Calls cfg k p)
    (hquiet : Undisturbed k (.semaphoreWait p i s))
    (hstep : k.semaphoreWait p i s = .ok (ret, k')) :
    Moved cfg (Permitted cfg k k' (.semaphoreWait p i s)) (Sum.elim b.tasks w) k' := by
  unfold Kernel.semaphoreWait at hstep
  dsimp only at hstep
  split at hstep
  · cases hstep
    exact ⟨b, w, h.weaken rfl rfl rfl (fun _ _ => id) fun _ => id, .refl⟩
  · rename_i hfew
    obtain ⟨k1, hwait, heq⟩ := bind_eq_ok.mp hstep
    cases heq
    exact wait_moved h hcalls hquiet hwait h rfl rfl (if_neg hfew)

theorem semaphoreSignal_moved {i : ι} {s ret}
    (hstep : k.semaphoreSignal cfg p i s tsc = .ok (ret, k')) :
    Moved cfg (Permitted cfg k k' (.semaphoreSignal p i s tsc)) (Sum.elim b.tasks w) k' := by
  obtain ⟨k1, hwake, heq⟩ := bind_eq_ok.mp hstep
  cases heq
  exact wakeupQueue_moved h hwake (h.weaken rfl rfl rfl (fun _ _ => id) fun _ => id) rfl
    fun _ => trivial

theorem circularInsert_moved {c : κ} {elt : α} {nowait : Bool} {ret}
    (hcalls : Calls cfg k p) (hquiet : Undisturbed k (.circularInsert p c elt nowait tsc))
    (hstep : k.genericCircularInsert cfg p c elt nowait tsc = .ok (ret, k')) :
    Moved cfg (Permitted cfg k k' (.circularInsert p c elt nowait tsc)) (Sum.elim b.tasks w)
      k' := by
  obtain ⟨hunready, ⟨-, -, rfl⟩ | ⟨hwaits, -, k1, hwait, rfl⟩⟩ | ⟨hready, -, k1, hwake, rfl⟩ :=
    nowait_cases hstep
  · exact ⟨b, w, h, .refl⟩
  · exact wait_moved h hcalls hquiet hwait h rfl rfl (if_pos ⟨hunready, hwaits⟩)
  · exact wakeupQueue_moved h hwake (h.weaken rfl rfl rfl (fun _ _ => id) fun _ => id)
      (if_neg hready) fun _ => trivial

theorem circularRemove_moved {c : κ} {nowait : Bool} {ret}
    (hcalls : Calls cfg k p) (hquiet : Undisturbed k (.circularRemove p c nowait tsc))
    (hstep : k.genericCircularRemove cfg p c nowait tsc = .ok (ret, k')) :
    Moved cfg (Permitted cfg k k' (.circularRemove p c nowait tsc)) (Sum.elim b.tasks w) k' := by
  obtain ⟨hunready, ⟨-, -, rfl⟩ | ⟨hwaits, -, k1, hwait, rfl⟩⟩ | ⟨hready, -, k1, hwake, rfl⟩ :=
    nowait_cases hstep
  · exact ⟨b, w, h, .refl⟩
  · exact wait_moved h hcalls hquiet hwait h rfl rfl (if_pos ⟨hunready, hwaits⟩)
  · exact wakeupQueue_moved h hwake (h.weaken rfl rfl rfl (fun _ _ => id) fun _ => id)
      (if_neg hready) fun _ => trivial

theorem waitpid_moved {pid : τ} {ret} (hcalls : Calls cfg k p)
    (hquiet : Undisturbed k (.waitpid p pid))
    (hstep : k.waitpid p pid = .ok (ret, k')) :
    Moved cfg (Permitted cfg k k' (.waitpid p pid)) (Sum.elim b.tasks w) k' := by
  unfold Kernel.waitpid at hstep
  split at hstep
  · rename_i hlive
    obtain ⟨k1, hwait, heq⟩ := bind_eq_ok.mp hstep
    cases heq
    exact wait_moved h hcalls hquiet hwait h rfl rfl (if_pos hlive)
  · cases hstep
    exact ⟨b, w, h, .refl⟩

theorem exit_moved (hstep : k.exit cfg p tsc = .ok k') :
    Moved cfg (Permitted cfg k k' (.exit p tsc)) (Sum.elim b.tasks w) k' := by
  unfold Kernel.exit at hstep
  cases hstr : k.sched.str p with
  | none =>
    rw [hstr] at hstep
    cases hstep
  | some t =>
    rw [hstr, deref_some, ok_bind] at hstep
    obtain ⟨k1, hwake, heq⟩ := bind_eq_ok.mp hstep
    cases heq
    have hdrop : Separate cfg
        { k with sched := { k.sched with str := update k.sched.str p none } } b w := by
      refine h.weaken rfl rfl rfl ?_ fun _ => id
      intro p' x hx
      by_cases hp : p' = p
      · simp [hp] at hx
      · simpa [hp] using hx
    have hreleases : releases k (.exit p tsc) = some (.exit t) := by simp [releases, hstr]
    obtain ⟨b', w', hsep, hmoves⟩ :=
      wakeupQueue_moved h hwake hdrop hreleases fun _ => trivial
    refine ⟨b', w', hsep.weaken rfl rfl rfl (fun _ _ => id) ?_, hmoves⟩
    intro p' hrun
    by_cases hp : p' = p
    · simp [Kernel.setBlocking, hp] at hrun
    · simpa [Kernel.setBlocking, hp] using hrun

theorem step_moved (hlegal : Legal cfg k event)
    (hquiet : Undisturbed k event) (hstep : step cfg k event = .ok k') :
    Moved cfg (Permitted cfg k k' event) (Sum.elim b.tasks w) k' := by
  cases event with
  | wakeup p task tsc => exact wakeup_moved h hquiet hstep h rfl rfl
  | jobWakeup p job T tsc =>
    obtain ⟨servers, hwake⟩ := jobWakeup_cases hstep
    exact wakeup_moved h hquiet hwake (h.weaken rfl rfl rfl (fun _ _ => id) fun _ => id)
      rfl rfl
  | schedule p tsc => exact schedule_moved hstep h .refl rfl
  | timer p wakeTsc tsc => exact timer_moved h hlegal hstep
  | usleep p usec start =>
    obtain ⟨sel, -, hwait⟩ := bind_eq_ok.mp hstep
    exact wait_moved h hlegal hquiet hwait
      (h.weaken rfl rfl rfl (fun _ _ => id) fun _ => id) rfl rfl rfl
  | processSleepqueue p now tsc => exact processSleepqueue_moved h hstep
  | semaphoreWait p i s =>
    obtain ⟨⟨ret, k1⟩, hwait, rfl⟩ := map_eq_ok.mp hstep
    exact semaphoreWait_moved h hlegal hquiet hwait
  | semaphoreSignal p i s tsc =>
    obtain ⟨⟨ret, k1⟩, hsignal, rfl⟩ := map_eq_ok.mp hstep
    exact semaphoreSignal_moved h hsignal
  | circularInsert p c elt nowait tsc =>
    obtain ⟨⟨ret, k1⟩, hins, rfl⟩ := map_eq_ok.mp hstep
    exact circularInsert_moved h hlegal hquiet hins
  | circularRemove p c nowait tsc =>
    obtain ⟨⟨ret, k1⟩, hrem, rfl⟩ := map_eq_ok.mp hstep
    exact circularRemove_moved h hlegal hquiet hrem
  | waitpid p pid =>
    obtain ⟨⟨ret, k1⟩, hwait, rfl⟩ := map_eq_ok.mp hstep
    exact waitpid_moved h hlegal hquiet hwait
  | exit p tsc => exact exit_moved h hstep

end Step

section Runs

structure Initial (cfg : Config σ τ n) (k : Kernel σ τ ι κ α n) : Prop where
  sched : Sched.RunInvariants.Initial k.sched
  waitq : ∀ q, k.waitq q = none
  homed : ∀ p t, k.sched.str p = some t →
    t = cfg.idleTss p ∨ ∃ v : Fin n, k.sched.binding t = v ∧ cfg.cpu v = p
  idleTask : ∀ p t, k.sched.vcpuIdleTask p = some t → t = cfg.idleTss p

variable [Fintype τ]

theorem separate_initial (h : Initial cfg k) :
    Separate cfg k (board k.sched.toLinks) fun _ => [] := by
  refine ⟨(Sched.RunInvariants.inv_initial h.sched).1, ⟨h.waitq, ?_⟩, ?_, ?_, h.homed, ?_,
    h.idleTask⟩
  · exact fun q q' t ht => absurd ht List.not_mem_nil
  · exact fun v t q _ => List.not_mem_nil
  · exact fun p t _ _ q => List.not_mem_nil
  · exact fun p q => List.not_mem_nil

variable [DecidableEq τ] [DecidableEq ι] [DecidableEq κ]

theorem separate_reached {start : Kernel σ τ ι κ α n} (hstart : Initial cfg start)
    (hreach : Reaches (step cfg) (fun k event => Legal cfg k event ∧ Undisturbed k event) start k) :
    ∃ b w, Separate cfg k b w := by
  apply hreach.invariant (fun k => ∃ b w, Separate cfg k b w) ⟨_, _, separate_initial hstart⟩
  rintro k k' event ⟨b, w, h⟩ ⟨hlegal, hquiet⟩ hstep
  obtain ⟨b', w', h', -⟩ := step_moved h hlegal hquiet hstep
  exact ⟨b', w', h'⟩

/-- Every queue is a null-terminated list without duplicates, no task is on two, and an event
makes only the moves that are permitted to it. -/
theorem one_queue_per_task {start : Kernel σ τ ι κ α n} (hstart : Initial cfg start)
    (hreach : Reaches (step cfg) (fun k event => Legal cfg k event ∧ Undisturbed k event) start k) :
    (∀ q, Chain k.sched.next (heads k q) (members k q) ∧ (members k q).Nodup) ∧
    (∀ q q' t, t ∈ members k q → t ∈ members k q' → q = q') ∧
    ∀ event k', Legal cfg k event → Undisturbed k event → step cfg k event = .ok k' →
      Moves (Permitted cfg k k' event) (members k) (members k') := by
  obtain ⟨b, w, h⟩ := separate_reached hstart hreach
  have hthreaded := h.threaded
  rw [← h.members_eq] at hthreaded
  refine ⟨fun q => ⟨hthreaded.chain q, (hthreaded.chain q).nodup⟩, hthreaded.apart, ?_⟩
  intro event k' hlegal hundisturbed hstep
  obtain ⟨b', w', h', hmoves⟩ := step_moved h hlegal hundisturbed hstep
  rw [h.members_eq, h'.members_eq]
  exact hmoves

end Runs

/-! One I/O VCPU: the thread 0 is the bottom half of a network card, the thread 1 takes messages
from a buffer of one, and the thread 2 is the idle task. -/

section OneIo

open Sched.Pibs

def oneIo : Config IoVcpu (Fin 3) 1 where
  hooks _ := ioServer.hooks
  period v := v.T
  setPeriod v T := { v with T := T }
  type _ := .io
  cpu _ := 0
  quantum _ := 10
  idleTss _ := 2
  cpuBusFreq := 100000
  tscFreq := 1000
  tscFreq_pos := Nat.succ_pos 999
  unbound_free := by decide

instance : DecidablePred (IsIdle oneIo) := fun t =>
  decidable_of_iff (2 = t) ⟨fun h => ⟨0, h⟩, fun ⟨_, h⟩ => h⟩

def oneIoBoot : Kernel IoVcpu (Fin 3) Unit Unit Unit 1 where
  sched := .boot (fun _ => 0) fun _ => ioVcpuInit 5 10 10
  waitq _ := none
  time _ := 0
  semaphores _ := ⟨0, 1⟩
  circulars _ := ⟨fun _ => (), 1, 0, 0, 0⟩
  live _ := true
  blocking _ := false

theorem oneIoBoot_initial : Initial oneIo oneIoBoot where
  sched := ⟨fun _ => rfl, fun _ => rfl, fun _ => rfl, fun _ => rfl⟩
  waitq _ := rfl
  homed _ _ h := absurd h (Option.some_ne_none _).symm
  idleTask _ _ h := absurd h (Option.some_ne_none _).symm

def wakeupAt (task : Fin 3) (now : Nat) : Event (Fin 3) Unit Unit Unit 1 :=
  .wakeup 0 task ⟨.at now, now, .at now⟩

def scheduleAt (now : Nat) : Event (Fin 3) Unit Unit Unit 1 :=
  .schedule 0 ⟨now, now, .at now, fun _ => .at now, fun _ => .at now, now⟩

def insertAt (now : Nat) : Event (Fin 3) Unit Unit Unit 1 :=
  .circularInsert 0 () () false fun _ => ⟨.at now, now, .at now⟩

def fullBuffer : List (Event (Fin 3) Unit Unit Unit 1) :=
  [wakeupAt 0 1, scheduleAt 1, insertAt 2, insertAt 3, scheduleAt 3]

theorem one_queue_per_task_full_buffer :
    ∃ start k : Kernel IoVcpu (Fin 3) Unit Unit Unit 1, Initial oneIo start ∧
      Reaches (step oneIo) (fun k event => Legal oneIo k event ∧ Undisturbed k event) start k ∧
      members k (.inr (.insWaitq ())) = [0] ∧ members k (.inl 0) = [1] ∧
      ∀ q, 0 ∈ members k q → q = .inr (.insWaitq ()) := by
  have hrun : (replay (step oneIo) (fun k event => Legal oneIo k event ∧ Undisturbed k event)
      oneIoBoot (fullBuffer ++ [wakeupAt 1 4])).map (fun k =>
        (members k (.inr (.insWaitq ())), members k (.inl 0))) = some ([0], [1]) := by decide
  obtain ⟨k, hk, hview⟩ := Option.map_eq_some_iff.mp hrun
  simp only [Prod.mk.injEq] at hview
  obtain ⟨hwait, htasks⟩ := hview
  have hreach := Reaches.refl.replay hk
  refine ⟨oneIoBoot, k, oneIoBoot_initial, hreach, hwait, htasks, ?_⟩
  intro q hq
  exact (one_queue_per_task oneIoBoot_initial hreach).2.1 q _ 0 hq (by simp [hwait])

/-- An interrupt wakes the bottom half while it waits for room: it is on two queues. -/
theorem two_queues_after_interrupt :
    ∃ start k k' : Kernel IoVcpu (Fin 3) Unit Unit Unit 1, Initial oneIo start ∧
      Reaches (step oneIo) (Legal oneIo) start k ∧
      members k (.inl 0) = [0] ∧ members k (.inr (.insWaitq ())) = [0] ∧
      Legal oneIo k (wakeupAt 1 5) ∧ step oneIo k (wakeupAt 1 5) = .ok k' ∧
      members k' (.inr (.insWaitq ())) = [0, 1] := by
  have hrun : (replay (step oneIo) (Legal oneIo) oneIoBoot
      (fullBuffer ++ [.jobWakeup 0 0 50 ⟨.at 4, 4, .at 4⟩])).map (fun k =>
        (members k (.inl 0), members k (.inr (.insWaitq ())), decide (Legal oneIo k (wakeupAt 1 5)),
          (step oneIo k (wakeupAt 1 5)).toOption.map fun k' => members k' (.inr (.insWaitq ())))) =
      some ([0], [0], true, some [0, 1]) := by decide
  obtain ⟨k, hk, hview⟩ := Option.map_eq_some_iff.mp hrun
  simp only [Prod.mk.injEq, decide_eq_true_eq] at hview
  obtain ⟨htasks, hwait, hlegal, hstep⟩ := hview
  obtain ⟨k', hk', hafter⟩ := Option.map_eq_some_iff.mp hstep
  refine ⟨oneIoBoot, k, k', oneIoBoot_initial, Reaches.refl.replay hk, htasks, hwait, hlegal, ?_,
    hafter⟩
  cases hok : step oneIo k (wakeupAt 1 5) with
  | error fault =>
    rw [hok] at hk'
    cases hk'
  | ok k1 =>
    rw [hok] at hk'
    exact congrArg Except.ok (Option.some.inj hk')

end OneIo

end Quest.Blocking.OneQueue
