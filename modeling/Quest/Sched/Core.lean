import Quest.Sched.Hooks
import Quest.Sched.Queue

/-! The two-level scheduler of `sched/vcpu.c`: tasks wait on the runqueue of their VCPU, runnable
VCPUs on the queue of their PCPU.  The state is an array for each field of the TSS and of the VCPU
and for each per-CPU variable. -/
namespace Quest.Sched.Core

open Lib.LinkedList Hooks Queue Function

inductive VcpuType where
  | main
  | io
  deriving DecidableEq

def quantumHz : Nat := 1000

def u64 (x : Int) : Nat := (x % 2 ^ 64).toNat

/-- What the boot code fixes.  The binding `0xFF` must not be a VCPU. -/
structure Config (σ τ : Type) (n : Nat) where
  hooks : Fin n → VcpuHooks σ
  period : σ → Nat
  setPeriod : σ → Nat → σ
  type : Fin n → VcpuType
  cpu : Fin n → Nat
  quantum : Fin n → Nat
  idleTss : Nat → τ
  cpuBusFreq : Nat
  tscFreq : Nat
  tscFreq_pos : 0 < tscFreq
  unbound_free : n ≤ 0xFF

structure Vcpu (τ : Type) where
  runnable : Bool
  running : Bool
  tr : Option τ
  nextSchedule : Nat
  deriving DecidableEq

/-- The fields of a VCPU that measure time.  `prevDelta` and `prevCount` are the
last interval and count of the timer. -/
structure Account where
  prevTsc : Nat
  virtualTsc : Nat
  prevDelta : Nat
  prevCount : Nat
  deriving DecidableEq

/-- `next` and `binding` are the fields `next` and `cpu` of the TSS, `vnext` is the field `next`
of the VCPU. -/
structure Links (τ : Type) (n : Nat) where
  next : τ → Option τ
  binding : τ → Nat
  runqueue : Fin n → Option τ
  vcpus : Fin n → Vcpu τ
  vnext : Fin n → Option (Fin n)
  nextVcpuBinding : Nat
  vcpuQueue : Nat → Option (Fin n)
  vcpuCurrent : Nat → Option (Fin n)

/-- `servers` holds the budgets, `str` the task that each PCPU executes and
`timer` the count that its timer was last started with. -/
structure Scheduler (σ τ : Type) (n : Nat) extends Links τ n where
  servers : Fin n → σ
  accounts : Fin n → Account
  vcpuIdleTask : Nat → Option τ
  pcpuTprev : Nat → Nat
  str : Nat → Option τ
  timer : Nat → Nat

variable {σ τ : Type} {n : Nat}

/-- The state in which `vcpu_init` and the initialisers leave the scheduler. -/
def Scheduler.boot (binding : τ → Nat) (servers : Fin n → σ) : Scheduler σ τ n where
  next _ := none
  binding := binding
  runqueue _ := none
  vcpus _ := ⟨false, false, none, 0⟩
  vnext _ := none
  nextVcpuBinding := 1
  vcpuQueue _ := none
  vcpuCurrent _ := none
  servers := servers
  accounts _ := ⟨0, 0, 0, 0⟩
  vcpuIdleTask _ := none
  pcpuTprev _ := 0
  str _ := none
  timer _ := 0

def vcpuLookup (n i : Nat) : Option (Fin n) :=
  if h : i < n then some ⟨i, h⟩ else none

def Links.setVcpu (l : Links τ n) (v : Fin n) (vcpu : Vcpu τ) : Links τ n :=
  { l with vcpus := update l.vcpus v vcpu }

def Links.setCurrent (l : Links τ n) (p : Nat) (vcpu : Option (Fin n)) : Links τ n :=
  { l with vcpuCurrent := update l.vcpuCurrent p vcpu }

def Scheduler.setServer (s : Scheduler σ τ n) (v : Fin n) (server : σ) : Scheduler σ τ n :=
  { s with servers := update s.servers v server }

def Scheduler.setAccount (s : Scheduler σ τ n) (v : Fin n) (account : Account) :
    Scheduler σ τ n :=
  { s with accounts := update s.accounts v account }

def Scheduler.startTimer (s : Scheduler σ τ n) (p count : Nat) : Scheduler σ τ n :=
  { s with timer := update s.timer p count }

section Second

variable [DecidableEq τ] [Fintype τ]

/-- `vcpu_internal_schedule`, on the VCPU, its runqueue and the tasks' links. -/
def internalSchedule (vcpu : Vcpu τ) (now quantum : Nat) (next : τ → Option τ)
    (runqueue : Option τ) : Except Fault (Vcpu τ × Option τ × (τ → Option τ)) :=
  let head := queueRemoveHead next runqueue
  let sched :=
    ({ vcpu with tr := head.1, nextSchedule := u64 (now + quantum) }, head.2, next)
  if vcpu.nextSchedule = 0 ∨ vcpu.nextSchedule ≤ now then .ok sched
  else do
    let queued ← vcpuInRunqueue next runqueue vcpu.tr
    if queued then
      let removed ← vcpuRemoveFromRunqueue next runqueue vcpu.tr
      .ok (vcpu, removed)
    else .ok sched

def Links.vcpuInternalSchedule (l : Links τ n) (v : Fin n) (now quantum : Nat) :
    Except Fault (Links τ n) := do
  let chosen ← internalSchedule (l.vcpus v) now quantum l.next (l.runqueue v)
  .ok { l.setVcpu v chosen.1 with
    runqueue := update l.runqueue v chosen.2.1
    next := chosen.2.2 }

end Second

/-- The loop that looks for a Main VCPU from `next_vcpu_binding` on: the index
found and the new `next_vcpu_binding`. -/
def assignVcpu (type : Fin n → VcpuType) : Nat → Nat → Except Fault (Nat × Nat)
  | 0, _ => .error .diverges
  | fuel + 1, cpu => do
      let following := if n ≤ cpu + 1 then 0 else cpu + 1
      let v ← deref (vcpuLookup n cpu)
      if type v = .main then .ok (cpu, following) else assignVcpu type fuel following

def Links.bindTask [DecidableEq τ] (l : Links τ n) (type : Fin n → VcpuType) (task : τ) :
    Except Fault (Links τ n) :=
  if l.binding task = 0xFF then do
    let assigned ← assignVcpu type (n + 1) l.nextVcpuBinding
    .ok { l with
      binding := update l.binding task assigned.1
      nextVcpuBinding := assigned.2 }
  else .ok l

section Wakeup

variable [DecidableEq τ] [Fintype τ]

def Links.vcpuRunqueueAppend (l : Links τ n) (v : Fin n) (task : τ) :
    Except Fault (Links τ n) := do
  let queue ← queueAppend l.next (l.runqueue v) task
  .ok { l with runqueue := update l.runqueue v queue.1, next := queue.2 }

def Links.pcpuQueueAppend (l : Links τ n) (p : Nat) (v : Fin n) : Except Fault (Links τ n) := do
  let queue ← vcpuQueueAppend l.vnext (l.vcpuQueue p) v
  .ok { l with vcpuQueue := update l.vcpuQueue p queue.1, vnext := queue.2 }

def Links.enqueue (cfg : Config σ τ n) (l : Links τ n) (task : τ) :
    Except Fault (Fin n × Links τ n) := do
  let l ← l.bindTask cfg.type task
  let v ← deref (vcpuLookup n (l.binding task))
  let l ← l.vcpuRunqueueAppend v task
  let l ← l.pcpuQueueAppend (cfg.cpu v) v
  .ok (v, l)

variable (cfg : Config σ τ n)

def Scheduler.makeRunnable (s : Scheduler σ τ n) (task : τ) (unblock : Tsc) :
    Except Fault (Fin n × Scheduler σ τ n) := do
  let (v, l) ← s.toLinks.enqueue cfg task
  let vcpu := l.vcpus v
  let server ← (if !vcpu.runnable && !vcpu.running then
    (cfg.hooks v).unblock (s.servers v) unblock else .ok (s.servers v))
  let s := { s with toLinks := l.setVcpu v { vcpu with runnable := true } }
  .ok (v, s.setServer v server)

/-- The `RDTSC` readings of `vcpu_wakeup` and of the hooks it calls. -/
structure WakeupTsc where
  unblock : Tsc
  now : Nat
  update : Tsc

/-- `if (v->b > 0 && (cur == NULL || cur->T > v->T)) LAPIC_start_timer (1)` -/
def Scheduler.preempt (s : Scheduler σ τ n) (p : Nat) (v : Fin n) : Scheduler σ τ n :=
  if 0 < (cfg.hooks v).budget (s.servers v) ∧
      (∀ cur ∈ s.vcpuCurrent p, cfg.period (s.servers v) < cfg.period (s.servers cur)) then
    s.startTimer p 1
  else s

def Scheduler.vcpuWakeup (s : Scheduler σ τ n) (p : Nat) (task : τ) (tsc : WakeupTsc) :
    Except Fault (Scheduler σ τ n) := do
  let (v, s) ← s.makeRunnable cfg task tsc.unblock
  let server ← (cfg.hooks v).updateReplenishments (s.servers v) tsc.now tsc.update
  .ok ((s.setServer v server).preempt cfg p v)

/-- `iovcpu_job_wakeup`, called on the PCPU `p`.  A shorter period, or one for an
idle IO VCPU, becomes the period of the VCPU. -/
def Scheduler.iovcpuJobWakeup (s : Scheduler σ τ n) (p : Nat) (job : τ) (T : Nat)
    (tsc : WakeupTsc) : Except Fault (Scheduler σ τ n) := do
  let v ← deref (vcpuLookup n (s.binding job))
  let vcpu := s.vcpus v
  let s := if cfg.type v = .io ∧ (T < cfg.period (s.servers v) ∨
    !(vcpu.running || vcpu.runnable)) then s.setServer v (cfg.setPeriod (s.servers v) T) else s
  s.vcpuWakeup cfg p job tsc

def Scheduler.vcpuRrWakeup (s : Scheduler σ τ n) (task : τ) (unblock : Tsc) :
    Except Fault (Scheduler σ τ n) := do
  let (_, s) ← s.makeRunnable cfg task unblock
  .ok s

end Wakeup

/-- The `RDTSC` readings of `vcpu_schedule` and of the hooks it calls. -/
structure ScheduleTsc (n : Nat) where
  tcur : Nat
  acntEnd : Nat
  endTimeslice : Tsc
  update : Fin n → Tsc
  nextEvent : Fin n → Tsc
  acntBegin : Nat

def ScheduleTsc.at (tcur : Nat) : ScheduleTsc n :=
  ⟨tcur, tcur, .at tcur, fun _ => .at tcur, fun _ => .at tcur, tcur⟩

@[simp] theorem ScheduleTsc.at_tcur (tcur : Nat) : (ScheduleTsc.at tcur : ScheduleTsc n).tcur = tcur :=
  rfl

/-- `vnext` is the link that points to the best VCPU so far, if there is one, and `Tnext` its
period. -/
structure Selection (σ : Type) (n : Nat) where
  servers : Fin n → σ
  Tnext : Nat
  vnext : Option (Option (Fin n))

/-- `if (vcpu->runqueue == 0)`: take the VCPU off the queue, through the link that
points to it. -/
def Links.dequeueIdle (l : Links τ n) (queue ptr : Option (Fin n)) (v : Fin n) :
    Option (Fin n) × Links τ n :=
  if l.runqueue v = none then
    let stored := store l.vnext queue ptr (l.vnext v)
    (stored.1, { l.setVcpu v { l.vcpus v with runnable := false } with vnext := stored.2 })
  else (queue, l)

/-- What `vcpu_schedule` does with the VCPU that it selected: the VCPU, and the
local copy of the head of the queue. -/
def Links.dispatch [DecidableEq τ] [Fintype τ] (quantum : Fin n → Nat) (accounts : Fin n → Account)
    (l : Links τ n) (p : Nat) (queue : Option (Fin n)) :
    Option (Option (Fin n)) → Except Fault (Option (Fin n) × Option (Fin n) × Links τ n)
  | none => .ok (none, queue, l.setCurrent p none)
  | some ptr => do
      let v ← deref (follow l.vnext queue ptr)
      let l ← l.vcpuInternalSchedule v (accounts v).virtualTsc (quantum v)
      let dequeued := l.dequeueIdle queue ptr v
      .ok (some v, dequeued.1, { dequeued.2.setCurrent p (some v) with
        vcpuQueue := update l.vcpuQueue p dequeued.1 })

def Links.setRunning (l : Links τ n) (vcpu : Option (Fin n)) (running : Bool) : Links τ n :=
  vcpu.elim l fun v => l.setVcpu v { l.vcpus v with running := running }

namespace Scheduler

def acntEndTimeslice (s : Scheduler σ τ n) (v : Fin n) (now : Nat) : Scheduler σ τ n :=
  let account := s.accounts v
  if account.prevTsc = 0 then s
  else s.setAccount v { account with
    virtualTsc := u64 (account.virtualTsc + (now - account.prevTsc)) }

def acntBeginTimeslice (s : Scheduler σ τ n) (v : Fin n) (now : Nat) : Scheduler σ τ n :=
  s.setAccount v { s.accounts v with prevTsc := now }

section First

variable (cfg : Config σ τ n)

def endTimeslice (s : Scheduler σ τ n) (p : Nat) (tsc : ScheduleTsc n) :
    Except Fault (Scheduler σ τ n) :=
  match s.vcpuCurrent p with
  | none => .ok s
  | some cur => do
      let tdelta := u64 (tsc.tcur - s.pcpuTprev p)
      let s := s.acntEndTimeslice cur tsc.acntEnd
      let server ← (cfg.hooks cur).endTimeslice (s.servers cur) (s.vcpus cur).runnable tdelta
        tsc.endTimeslice
      .ok (s.setServer cur server)

def consider (tsc : ScheduleTsc n) (ptr : Option (Fin n)) (v : Fin n) (best : Selection σ n) :
    Except Fault (Selection σ n) :=
  if best.Tnext = 0 ∨ cfg.period (best.servers v) < best.Tnext then do
    let server ← (cfg.hooks v).updateReplenishments (best.servers v) tsc.tcur (tsc.update v)
    let servers := update best.servers v server
    if 0 < (cfg.hooks v).budget server then .ok ⟨servers, cfg.period server, some ptr⟩
    else .ok { best with servers := servers }
  else .ok best

def selectVcpu (s : Scheduler σ τ n) (queue : Option (Fin n)) (tsc : ScheduleTsc n) :
    Except Fault (Selection σ n) :=
  forLinks .diverges s.vnext queue (consider cfg tsc) (n + 1) none ⟨s.servers, 0, none⟩

def sooner (s : Scheduler σ τ n) (tsc : ScheduleTsc n) (Tnext : Nat) (v : Fin n) (tdelta : Nat) :
    Except Fault Nat :=
  if Tnext = 0 ∨ cfg.period (s.servers v) ≤ Tnext then do
    let event ← (cfg.hooks v).nextEvent (s.servers v) (tsc.nextEvent v)
    let wait := u64 (event - tsc.tcur)
    if event ≠ 0 ∧ (tdelta = 0 ∨ wait < tdelta) then .ok wait else .ok tdelta
  else .ok tdelta

def eventDelta (s : Scheduler σ τ n) (tsc : ScheduleTsc n) (Tnext : Nat)
    (vcpu queue : Option (Fin n)) : Except Fault Nat :=
  let budget := vcpu.elim 0 fun v => (cfg.hooks v).budget (s.servers v)
  forLinks .diverges s.vnext queue (fun _ => sooner cfg s tsc Tnext) (n + 1) none budget

def timerCount (tdelta : Nat) : Nat :=
  let count := u64 (tdelta * cfg.cpuBusFreq) / cfg.tscFreq % 2 ^ 32
  min (if count = 0 then 1 else count) (cfg.cpuBusFreq / quantumHz)

def setTimer (s : Scheduler σ τ n) (p : Nat) (vcpu : Option (Fin n)) (tdelta : Nat) :
    Scheduler σ τ n :=
  if 0 < tdelta then
    let count := timerCount cfg tdelta
    let s := vcpu.elim s fun v =>
      s.setAccount v { s.accounts v with prevDelta := tdelta, prevCount := count }
    s.startTimer p count
  else s.startTimer p (cfg.cpuBusFreq / quantumHz)

def scheduleQueue [DecidableEq τ] [Fintype τ] (s : Scheduler σ τ n) (p : Nat)
    (tsc : ScheduleTsc n) : Except Fault (Option (Fin n) × Scheduler σ τ n) := do
  let best ← selectVcpu cfg s (s.vcpuQueue p) tsc
  let (vcpu, queue, l) ← s.toLinks.dispatch cfg.quantum s.accounts p (s.vcpuQueue p) best.vnext
  let s := { s with toLinks := l, servers := best.servers }
  let tdelta ← eventDelta cfg s tsc best.Tnext vcpu queue
  .ok (vcpu, setTimer cfg s p vcpu tdelta)

/-- The switch to the task `next`.  Without a task the PCPU goes idle. -/
def switchTo (s : Scheduler σ τ n) (p : Nat) : Option τ → Scheduler σ τ n
  | some next => { s with str := update s.str p (some next) }
  | none =>
      let idle := (s.vcpuIdleTask p).getD (cfg.idleTss p)
      { s with
        toLinks := s.toLinks.setCurrent p none
        vcpuIdleTask := update s.vcpuIdleTask p (some idle)
        str := update s.str p (some idle) }

def vcpuSchedule [DecidableEq τ] [Fintype τ] (s : Scheduler σ τ n) (p : Nat)
    (tsc : ScheduleTsc n) : Except Fault (Scheduler σ τ n) := do
  let cur := s.vcpuCurrent p
  let s ← s.endTimeslice cfg p tsc
  let (vcpu, s) ← (if s.vcpuQueue p = none then
    .ok (none, s.startTimer p (cfg.cpuBusFreq / quantumHz)) else s.scheduleQueue cfg p tsc)
  let s := vcpu.elim s fun v => s.acntBeginTimeslice v tsc.acntBegin
  let s := s.switchTo cfg p (vcpu.bind fun v => (s.vcpus v).tr)
  .ok { s with
    toLinks := (s.toLinks.setRunning cur false).setRunning vcpu true
    pcpuTprev := update s.pcpuTprev p tsc.tcur }

/-- What a call of `vcpu_schedule` has found before it starts the timer: the budgets after the
timeslice, the VCPU selected, the queues and budgets it leaves, and the time to the next event. -/
structure Outcome (σ τ : Type) (n : Nat) where
  charged : Fin n → σ
  vcpu : Option (Fin n)
  left : Scheduler σ τ n
  tdelta : Nat

/-- A call of `vcpu_schedule` up to the timer, as it goes for a queue that is not
empty. -/
def pass [DecidableEq τ] [Fintype τ] (s : Scheduler σ τ n) (p : Nat) (tsc : ScheduleTsc n) :
    Except Fault (Outcome σ τ n) := do
  let s ← s.endTimeslice cfg p tsc
  let best ← selectVcpu cfg s (s.vcpuQueue p) tsc
  let (vcpu, queue, l) ← s.toLinks.dispatch cfg.quantum s.accounts p (s.vcpuQueue p) best.vnext
  let left := { s with toLinks := l, servers := best.servers }
  let tdelta ← eventDelta cfg left tsc best.Tnext vcpu queue
  .ok ⟨s.servers, vcpu, left, tdelta⟩

def finish (s : Scheduler σ τ n) (p : Nat) (tsc : ScheduleTsc n) (x : Outcome σ τ n) :
    Scheduler σ τ n :=
  let started := setTimer cfg x.left p x.vcpu x.tdelta
  let begun := x.vcpu.elim started fun v => started.acntBeginTimeslice v tsc.acntBegin
  let switched := begun.switchTo cfg p (x.vcpu.bind fun v => (begun.vcpus v).tr)
  { switched with
    toLinks := (switched.toLinks.setRunning (s.vcpuCurrent p) false).setRunning x.vcpu true
    pcpuTprev := update switched.pcpuTprev p tsc.tcur }

theorem vcpuSchedule_eq [DecidableEq τ] [Fintype τ] (s : Scheduler σ τ n) (p : Nat)
    (tsc : ScheduleTsc n) :
    s.vcpuSchedule cfg p tsc = s.finish cfg p tsc <$> s.pass cfg p tsc := by
  unfold vcpuSchedule pass
  cases hslice : s.endTimeslice cfg p tsc with
  | error fault => rfl
  | ok s0 =>
    simp only [ok_bind]
    by_cases hempty : s0.vcpuQueue p = none
    · rw [if_pos hempty]
      simp only [ok_bind, hempty, selectVcpu, forLinks, follow, Links.dispatch, eventDelta]
      simp [finish, setTimer, startTimer, switchTo, Links.setCurrent, Links.setRunning]
    · simp only [if_neg hempty, scheduleQueue]
      cases selectVcpu cfg s0 (s0.vcpuQueue p) tsc with
      | error fault => rfl
      | ok best =>
        simp only [ok_bind]
        cases s0.toLinks.dispatch cfg.quantum s0.accounts p (s0.vcpuQueue p) best.vnext with
        | error fault => rfl
        | ok dispatched =>
          obtain ⟨vcpu, queue, l⟩ := dispatched
          simp only [ok_bind]
          cases eventDelta cfg { s0 with toLinks := l, servers := best.servers } tsc best.Tnext
            vcpu queue with
          | error fault => rfl
          | ok tdelta => rfl

def rotateQueue [DecidableEq τ] [Fintype τ] (s : Scheduler σ τ n) (p : Nat) (v : Fin n) :
    Except Fault (Scheduler σ τ n) := do
  let queue := (queueRemoveHead s.vnext (some v)).2
  let l ← s.toLinks.vcpuInternalSchedule v (s.accounts v).virtualTsc (cfg.quantum v)
  let appended ← (if l.runqueue v = none then .ok (queue, l.vnext)
    else vcpuQueueAppend l.vnext queue v)
  .ok { s with toLinks := { l.setCurrent p (some v) with
    vnext := appended.2
    vcpuQueue := update l.vcpuQueue p appended.1 } }

def vcpuRrSchedule [DecidableEq τ] [Fintype τ] (s : Scheduler σ τ n) (p acntEnd acntBegin : Nat) :
    Except Fault (Scheduler σ τ n) := do
  let s := (s.vcpuCurrent p).elim s fun cur => s.acntEndTimeslice cur acntEnd
  let vcpu := s.vcpuQueue p
  let s ← (match vcpu with
    | none => .ok s
    | some v => s.rotateQueue cfg p v)
  let s := vcpu.elim s fun v => s.acntBeginTimeslice v acntBegin
  .ok (s.switchTo cfg p (vcpu.bind fun v => (s.vcpus v).tr))

end First

end Scheduler

end Quest.Sched.Core
