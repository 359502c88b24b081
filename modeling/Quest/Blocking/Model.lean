import Quest.Sched.Core

/-! How tasks block and wake each other: `sched/sleep.c`, `smp/semaphore.c`, `util/circular.c`,
`_waitpid` and `__exit`, the timer interrupt and the handlers that wake a thread.  All queues run
through the `next` field of the TSS. -/
namespace Quest.Blocking.Model

open Lib.LinkedList Sched.Hooks Sched.Queue Sched.Core Function

inductive WaitQueue (τ ι κ : Type) where
  | sleepqueue
  | semaphore (i : ι)
  | insWaitq (c : κ)
  | remWaitq (c : κ)
  | exit (task : τ)
  deriving DecidableEq, Fintype

structure Semaphore where
  s : Int
  max : Int

/-- `circular`, with pointers into the buffer as indices of elements. -/
structure Circular (α : Type) where
  buffer : Nat → α
  numElts : Nat
  curCount : Nat
  insertPtr : Nat
  removePtr : Nat

/-- `time` is the end of a sleep, `live` whether `lookup_TSS` finds a task.  A PCPU is `blocking`
from the append to a wait queue to the call of `schedule`. -/
structure Kernel (σ τ ι κ α : Type) (n : Nat) where
  sched : Scheduler σ τ n
  waitq : WaitQueue τ ι κ → Option τ
  time : τ → Nat
  semaphores : ι → Semaphore
  circulars : κ → Circular α
  live : τ → Bool
  blocking : Nat → Bool

variable {σ τ ι κ α : Type} {n : Nat} [DecidableEq τ] [DecidableEq ι] [DecidableEq κ] [Fintype τ]

namespace Kernel

def setNext (k : Kernel σ τ ι κ α n) (next : τ → Option τ) : Kernel σ τ ι κ α n :=
  { k with sched := { k.sched with next := next } }

def setWaitq (k : Kernel σ τ ι κ α n) (w : WaitQueue τ ι κ) (queue : Option τ) :
    Kernel σ τ ι κ α n :=
  { k with waitq := update k.waitq w queue }

def setBlocking (k : Kernel σ τ ι κ α n) (p : Nat) (blocking : Bool) : Kernel σ τ ι κ α n :=
  { k with blocking := update k.blocking p blocking }

def setCircular (k : Kernel σ τ ι κ α n) (c : κ) (circular : Circular α) : Kernel σ τ ι κ α n :=
  { k with circulars := update k.circulars c circular }

/-- `queue_append (&waitqueue, str ())`, before a call of `schedule`. -/
def wait (k : Kernel σ τ ι κ α n) (p : Nat) (w : WaitQueue τ ι κ) :
    Except Fault (Kernel σ τ ι κ α n) := do
  let task ← deref (k.sched.str p)
  let queue ← queueAppend k.sched.next (k.waitq w) task
  .ok (((k.setNext queue.2).setWaitq w queue.1).setBlocking p true)

section Calls

variable (cfg : Config σ τ n)

def wakeup (k : Kernel σ τ ι κ α n) (p : Nat) (task : τ) (tsc : WakeupTsc) :
    Except Fault (Kernel σ τ ι κ α n) := do
  let sched ← k.sched.vcpuWakeup cfg p task tsc
  .ok { k with sched := sched }

def schedule (k : Kernel σ τ ι κ α n) (p : Nat) (tsc : ScheduleTsc n) :
    Except Fault (Kernel σ τ ι κ α n) := do
  let sched ← k.sched.vcpuSchedule cfg p tsc
  .ok ({ k with sched := sched }.setBlocking p false)

/-- `iovcpu_job_wakeup`, as the interrupt handlers call it for their thread. -/
def jobWakeup (k : Kernel σ τ ι κ α n) (p : Nat) (job : τ) (T : Nat) (tsc : WakeupTsc) :
    Except Fault (Kernel σ τ ι κ α n) := do
  let sched ← k.sched.iovcpuJobWakeup cfg p job T tsc
  .ok { k with sched := sched }

def wakeupLoop (p : Nat) (tsc : τ → WakeupTsc) (w : WaitQueue τ ι κ) :
    Nat → Kernel σ τ ι κ α n → Except Fault (Kernel σ τ ι κ α n)
  | 0, _ => .error .diverges
  | fuel + 1, k =>
      let removed := queueRemoveHead k.sched.next (k.waitq w)
      match removed.1 with
      | none => .ok k
      | some head => do
          let k ← (k.setWaitq w removed.2).wakeup cfg p head (tsc head)
          wakeupLoop p tsc w fuel k

def wakeupQueue (k : Kernel σ τ ι κ α n) (p : Nat) (w : WaitQueue τ ι κ) (tsc : τ → WakeupTsc) :
    Except Fault (Kernel σ τ ι κ α n) :=
  wakeupLoop cfg p tsc w (Fintype.card τ + 1) k

def timerInterrupt (k : Kernel σ τ ι κ α n) (p : Nat) (wakeTsc : WakeupTsc)
    (tsc : ScheduleTsc n) : Except Fault (Kernel σ τ ι κ α n) := do
  let k := { k with sched := k.sched.startTimer p (cfg.cpuBusFreq / quantumHz) }
  let task ← deref (k.sched.str p)
  let k ← (if task ≠ cfg.idleTss p then k.wakeup cfg p task wakeTsc else .ok k)
  k.schedule cfg p tsc

/-- `sched_usleep`, up to the call of `schedule`. -/
def schedUsleep (k : Kernel σ τ ι κ α n) (p usec start : Nat) :
    Except Fault (Kernel σ τ ι κ α n) := do
  let sel ← deref (k.sched.str p)
  let finish := u64 (start + u64 (cfg.tscFreq * usec) / 1000000)
  { k with time := update k.time sel finish }.wait p .sleepqueue

/-- The loop of `process_sleepqueue`, at the task that the link `q` points to. -/
def sleepLoop (p now : Nat) (tsc : τ → WakeupTsc) :
    Nat → Option τ → τ → Kernel σ τ ι κ α n → Except Fault (Kernel σ τ ι κ α n)
  | 0, _, _, _ => .error .diverges
  | fuel + 1, q, task, k => do
      let next := k.sched.next task
      let (q, k) ← (if k.time task ≤ now then do
        let target ← deref (follow k.sched.next (k.waitq .sleepqueue) q)
        let k ← k.wakeup cfg p target (tsc target)
        let stored := store k.sched.next (k.waitq .sleepqueue) q next
        .ok (q, { (k.setNext stored.2).setWaitq .sleepqueue stored.1 with
          time := update k.time task 0 })
        else .ok (some task, k))
      match next with
      | none => .ok k
      | some _ => do
          let task ← deref (follow k.sched.next (k.waitq .sleepqueue) q)
          sleepLoop p now tsc fuel q task k

def processSleepqueue (k : Kernel σ τ ι κ α n) (p now : Nat) (tsc : τ → WakeupTsc) :
    Except Fault (Kernel σ τ ι κ α n) :=
  match k.waitq .sleepqueue with
  | none => .ok k
  | some task => sleepLoop cfg p now tsc (Fintype.card τ + 1) none task k

def semaphoreSignal (k : Kernel σ τ ι κ α n) (p : Nat) (i : ι) (s : Int) (tsc : τ → WakeupTsc) :
    Except Fault (Int × Kernel σ τ ι κ α n) := do
  let sem := k.semaphores i
  let saturated : Bool := sem.max < sem.s + s
  let sem := { sem with s := if saturated then sem.max else sem.s + s }
  let k ← { k with semaphores := update k.semaphores i sem }.wakeupQueue cfg p
    (.semaphore i) tsc
  .ok (if saturated then -1 else 0, k)

/-- `generic_circular_insert`, from the lock to the unlock: what it returns, or
nothing if it blocks. -/
def genericCircularInsert (k : Kernel σ τ ι κ α n) (p : Nat) (c : κ) (elt : α) (nowait : Bool)
    (tsc : τ → WakeupTsc) : Except Fault (Option Int × Kernel σ τ ι κ α n) := do
  let circ := k.circulars c
  if circ.curCount = circ.numElts then
    if nowait then .ok (some (-1), k)
    else do
      let k ← k.wait p (.insWaitq c)
      .ok (none, k)
  else do
    let insertPtr := circ.insertPtr + 1
    let circ := { circ with
      buffer := update circ.buffer circ.insertPtr elt
      insertPtr := if circ.numElts ≤ insertPtr then 0 else insertPtr
      curCount := circ.curCount + 1 }
    let k ← (k.setCircular c circ).wakeupQueue cfg p (.remWaitq c) tsc
    .ok (some circ.curCount, k)

/-- `generic_circular_remove`, from the lock to the unlock: what it returns and
the element, or nothing if it blocks. -/
def genericCircularRemove (k : Kernel σ τ ι κ α n) (p : Nat) (c : κ) (nowait : Bool)
    (tsc : τ → WakeupTsc) : Except Fault (Option (Int × Option α) × Kernel σ τ ι κ α n) := do
  let circ := k.circulars c
  if circ.curCount = 0 then
    if nowait then .ok (some (-1, none), k)
    else do
      let k ← k.wait p (.remWaitq c)
      .ok (none, k)
  else do
    let elt := circ.buffer circ.removePtr
    let removePtr := circ.removePtr + 1
    let circ := { circ with
      removePtr := if circ.numElts ≤ removePtr then 0 else removePtr
      curCount := circ.curCount - 1 }
    let k ← (k.setCircular c circ).wakeupQueue cfg p (.insWaitq c) tsc
    .ok (some (circ.curCount, some elt), k)

/-- `__exit`, up to the call of `schedule`. -/
def exit (k : Kernel σ τ ι κ α n) (p : Nat) (tsc : τ → WakeupTsc) :
    Except Fault (Kernel σ τ ι κ α n) := do
  let task ← deref (k.sched.str p)
  let k := { k with sched := { k.sched with str := update k.sched.str p none } }
  let k ← k.wakeupQueue cfg p (.exit task) tsc
  .ok ({ k with live := update k.live task false }.setBlocking p true)

end Calls

/-- `semaphore_wait`, from the lock to the unlock: what it returns, or nothing if
it blocks. -/
def semaphoreWait (k : Kernel σ τ ι κ α n) (p : Nat) (i : ι) (s : Int) :
    Except Fault (Option Int × Kernel σ τ ι κ α n) :=
  let sem := k.semaphores i
  if s ≤ sem.s then
    .ok (some 0, { k with
      semaphores := update k.semaphores i { sem with s := sem.s - s } })
  else do
    let k ← k.wait p (.semaphore i)
    .ok (none, k)

/-- `_waitpid`, up to the call of `schedule`: what it returns, or nothing if it
blocks. -/
def waitpid (k : Kernel σ τ ι κ α n) (p : Nat) (pid : τ) :
    Except Fault (Option Int × Kernel σ τ ι κ α n) :=
  if k.live pid then do
    let k ← k.wait p (.exit pid)
    .ok (none, k)
  else .ok (some (-1), k)

end Kernel

/-- What can happen on a PCPU `p`.  `wakeup` is a call by the code that starts tasks or by a disk
driver, `jobWakeup` one by the handler of a network interrupt. -/
inductive Event (τ ι κ α : Type) (n : Nat) where
  | wakeup (p : Nat) (task : τ) (tsc : WakeupTsc)
  | jobWakeup (p : Nat) (job : τ) (T : Nat) (tsc : WakeupTsc)
  | schedule (p : Nat) (tsc : ScheduleTsc n)
  | timer (p : Nat) (wakeTsc : WakeupTsc) (tsc : ScheduleTsc n)
  | usleep (p usec start : Nat)
  | processSleepqueue (p now : Nat) (tsc : τ → WakeupTsc)
  | semaphoreWait (p : Nat) (i : ι) (s : Int)
  | semaphoreSignal (p : Nat) (i : ι) (s : Int) (tsc : τ → WakeupTsc)
  | circularInsert (p : Nat) (c : κ) (elt : α) (nowait : Bool) (tsc : τ → WakeupTsc)
  | circularRemove (p : Nat) (c : κ) (nowait : Bool) (tsc : τ → WakeupTsc)
  | waitpid (p : Nat) (pid : τ)
  | exit (p : Nat) (tsc : τ → WakeupTsc)

def step (cfg : Config σ τ n) (k : Kernel σ τ ι κ α n) :
    Event τ ι κ α n → Except Fault (Kernel σ τ ι κ α n)
  | .wakeup p task tsc => k.wakeup cfg p task tsc
  | .jobWakeup p job T tsc => k.jobWakeup cfg p job T tsc
  | .schedule p tsc => k.schedule cfg p tsc
  | .timer p wakeTsc tsc => k.timerInterrupt cfg p wakeTsc tsc
  | .usleep p usec start => k.schedUsleep cfg p usec start
  | .processSleepqueue p now tsc => k.processSleepqueue cfg p now tsc
  | .semaphoreWait p i s => Prod.snd <$> k.semaphoreWait p i s
  | .semaphoreSignal p i s tsc => Prod.snd <$> k.semaphoreSignal cfg p i s tsc
  | .circularInsert p c elt nowait tsc =>
      Prod.snd <$> k.genericCircularInsert cfg p c elt nowait tsc
  | .circularRemove p c nowait tsc => Prod.snd <$> k.genericCircularRemove cfg p c nowait tsc
  | .waitpid p pid => Prod.snd <$> k.waitpid p pid
  | .exit p tsc => k.exit cfg p tsc

theorem nowait_cases {S K R : Type} {unready : Prop} [Decidable unready] {nowait : Bool} {x y : S}
    {w u : Except Fault K} {g f : K → S} {r s ret : Option R}
    (h : (if unready then if nowait then .ok (r, x) else do let k ← w; .ok (none, g k)
      else do let k ← u; .ok (s, f k)) = (.ok (ret, y) : Except Fault (Option R × S))) :
    (unready ∧ (nowait = true ∧ ret = r ∧ y = x ∨
        nowait = false ∧ ret = none ∧ ∃ k, w = .ok k ∧ y = g k)) ∨
      (¬unready ∧ ret = s ∧ ∃ k, u = .ok k ∧ y = f k) := by
  split at h
  · rename_i hunready
    refine .inl ⟨hunready, ?_⟩
    cases nowait with
    | true =>
      cases h
      exact .inl ⟨rfl, rfl, rfl⟩
    | false =>
      obtain ⟨k, hwait, heq⟩ := bind_eq_ok.mp h
      cases heq
      exact .inr ⟨rfl, rfl, k, hwait, rfl⟩
  · rename_i hready
    obtain ⟨k, hwake, heq⟩ := bind_eq_ok.mp h
    cases heq
    exact .inr ⟨hready, rfl, k, hwake, rfl⟩

end Quest.Blocking.Model
