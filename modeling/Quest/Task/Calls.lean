import Quest.Lib.LinkedList
import Quest.Task.Gdt

/-! The system calls that take a task id from user level: `_waitpid` and
`_sched_setparam`, up to their calls of the scheduler. -/
namespace Quest.Task

open Quest.Lib LinkedList Function

structure QuestTss where
  next : Nat
  waitqueue : Nat
  priority : Nat
  deriving DecidableEq, Repr

structure SchedParam where
  schedPriority : Int
  T : Int
  m : Int
  k : Int

/-- The descriptors, and what the memory at an address is as a TSS. -/
structure Kernel where
  ad : Nat → Descriptor
  tss : Nat → QuestTss

namespace Kernel

def lookupTss (k : Kernel) (selector : Nat) : Nat := (k.ad (selector >>> 3)).base

def setNext (k : Kernel) (a next : Nat) : Kernel :=
  { k with tss := update k.tss a { k.tss a with next := next } }

def setWaitqueue (k : Kernel) (a waitqueue : Nat) : Kernel :=
  { k with tss := update k.tss a { k.tss a with waitqueue := waitqueue } }

def setPriority (k : Kernel) (a priority : Nat) : Kernel :=
  { k with tss := update k.tss a { k.tss a with priority := priority } }

/-- The loop of `queue_append`: the last TSS of the queue, or none if the task is on it. -/
def lastOf (k : Kernel) (selector : Nat) : Nat → Nat → Except Fault (Option Nat)
  | 0, _ => .error .diverges
  | fuel + 1, tssp =>
      let next := (k.tss tssp).next
      if next = 0 then .ok (some tssp)
      else if next = selector then .ok none
      else k.lastOf selector fuel (k.lookupTss next)

def queueAppend (k : Kernel) (ptss selector : Nat) : Except Fault Kernel :=
  let queue := (k.tss ptss).waitqueue
  if queue = 0 then
    .ok ((k.setWaitqueue ptss selector).setNext (k.lookupTss selector) 0)
  else if queue = selector then
    .ok k
  else do
    match ← k.lastOf selector (2 ^ 16) (k.lookupTss queue) with
    | none => .ok k
    | some tssp => .ok ((k.setNext tssp selector).setNext (k.lookupTss selector) 0)

def waitpid (k : Kernel) (str pid : Nat) : Except Fault (Int × Kernel) :=
  let ptss := k.lookupTss pid
  if ptss ≠ 0 then do
    let k ← k.queueAppend ptss str
    .ok (0, k)
  else
    .ok (-1, k)

end Kernel

namespace SchedParam

def window (p : SchedParam) : Int := (p.k * p.T).bmod (2 ^ 32)

def Divides (p : SchedParam) : Prop := p.m ≠ 0 ∧ ¬(p.window = -2 ^ 31 ∧ p.m = -1)

instance (p : SchedParam) : Decidable p.Divides := inferInstanceAs (Decidable (_ ∧ _))

def priority (p : SchedParam) : Except Fault Nat :=
  if p.schedPriority = -1 then
    if p.Divides then .ok ((p.window.tdiv p.m) % 2 ^ 32).toNat
    else .error (.panic "Division Error")
  else
    .ok (p.schedPriority % 2 ^ 32).toNat

end SchedParam

namespace Kernel

def schedSetparam (k : Kernel) (pid : Nat) (p : SchedParam) : Except Fault (Int × Kernel) :=
  let ptss := k.lookupTss pid
  if ptss ≠ 0 then do
    let priority ← p.priority
    .ok (0, k.setPriority ptss priority)
  else
    .ok (-1, k)

structure TouchesTasks (live : Nat → Prop) (k k' : Kernel) : Prop where
  ad : k'.ad = k.ad
  tss : ∀ a, (∀ i, live i → a ≠ (k.ad i).base) → k'.tss a = k.tss a

/-- The call is rejected, or it works on a task. -/
def Confined (live : Nat → Prop) (k : Kernel) (pid : Nat) (r : Except Fault (Int × Kernel)) : Prop :=
  r = .ok (-1, k) ∨ live (pid >>> 3) ∧ ∃ k', r = .ok (0, k') ∧ TouchesTasks live k k'

def pointer (selector : Nat) : Option Nat := if selector = 0 then none else some selector

def links (k : Kernel) (selector : Nat) : Option Nat :=
  pointer (k.tss (k.lookupTss selector)).next

/-- The wait queues of the tasks hold tasks. -/
def QueuesTasks (live : Nat → Prop) (k : Kernel) : Prop :=
  ∀ i, live i → ∃ nodes, Chain k.links (pointer (k.tss (k.ad i).base).waitqueue) nodes ∧
    ∀ selector ∈ nodes, selector < 2 ^ 16 ∧ live (selector >>> 3)

variable {k k' k'' : Kernel} {live : Nat → Prop} {a i str pid fuel tssp selector : Nat}
  {nodes : List Nat} {p : SchedParam}

theorem TouchesTasks.refl (live : Nat → Prop) (k : Kernel) : TouchesTasks live k k :=
  ⟨rfl, fun _ _ => rfl⟩

theorem TouchesTasks.trans (h : TouchesTasks live k k') (h' : TouchesTasks live k' k'') :
    TouchesTasks live k k'' := by
  refine ⟨h'.ad.trans h.ad, fun a ha => ?_⟩
  rw [h'.tss a (h.ad ▸ ha), h.tss a ha]

theorem touchesTasks_update {tss : QuestTss} (hi : live i) :
    TouchesTasks live k { k with tss := update k.tss (k.ad i).base tss } := by
  refine ⟨rfl, fun a ha => ?_⟩
  exact update_of_ne (ha i hi) _ _

theorem pointer_eq_some {n : Nat} : pointer n = some selector ↔ n = selector ∧ n ≠ 0 := by
  rw [pointer]
  split
  · rename_i hzero
    simp [hzero]
  · rename_i hne
    simp [hne]

theorem pointer_eq_none {n : Nat} : pointer n = none ↔ n = 0 := by
  rw [pointer]
  split <;> simp_all

theorem lastOf_spec (hnodes : Chain k.links (pointer (k.tss tssp).next) nodes)
    (hlive : ∀ selector ∈ nodes, live (selector >>> 3)) (hfuel : nodes.length < fuel)
    (htssp : ∃ i, live i ∧ tssp = (k.ad i).base) :
    k.lastOf selector fuel tssp = .ok none ∨
      ∃ i, live i ∧ k.lastOf selector fuel tssp = .ok (some (k.ad i).base) := by
  induction nodes generalizing fuel tssp with
  | nil =>
    obtain ⟨fuel, rfl⟩ := Nat.exists_eq_add_of_lt hfuel
    obtain ⟨i, hi, rfl⟩ := htssp
    refine .inr ⟨i, hi, ?_⟩
    rw [lastOf, if_pos (pointer_eq_none.mp hnodes)]
  | cons s nodes ih =>
    obtain ⟨fuel, rfl⟩ : ∃ f, fuel = f + 1 := ⟨fuel - 1, by omega⟩
    obtain ⟨hhead, hrest⟩ := hnodes
    obtain ⟨hs, hne⟩ := pointer_eq_some.mp hhead
    rw [lastOf, if_neg hne]
    split
    · exact .inl rfl
    · rw [hs]
      rw [List.length_cons] at hfuel
      exact ih hrest (fun s' hs' => hlive s' (List.mem_cons_of_mem s hs')) (by omega)
        ⟨s >>> 3, hlive s List.mem_cons_self, rfl⟩

theorem queueAppend_spec (hqueues : k.QueuesTasks live) (hi : live i) (hstr : live (str >>> 3)) :
    ∃ k', k.queueAppend (k.ad i).base str = .ok k' ∧ TouchesTasks live k k' := by
  obtain ⟨nodes, hchain, hnodes⟩ := hqueues i hi
  have happ : ∀ {k'}, TouchesTasks live k k' →
      TouchesTasks live k (k'.setNext (k.lookupTss str) 0) := by
    intro k' h
    apply h.trans
    rw [lookupTss, ← h.ad]
    exact touchesTasks_update hstr
  rw [queueAppend]
  split
  · exact ⟨_, rfl, happ (touchesTasks_update hi)⟩
  · rename_i hne
    split
    · exact ⟨k, rfl, .refl live k⟩
    · cases nodes with
      | nil => exact absurd (pointer_eq_none.mp hchain) hne
      | cons s rest =>
        have hlen : (s :: rest).length ≤ 2 ^ 16 := by
          have hsub : s :: rest ⊆ List.range (2 ^ 16) := fun x hx =>
            List.mem_range.mpr (hnodes x hx).1
          have := (List.subperm_of_subset hchain.nodup hsub).length_le
          rwa [List.length_range] at this
        rw [List.length_cons] at hlen
        obtain ⟨hhead, hrest⟩ := hchain
        rw [(pointer_eq_some.mp hhead).1]
        have hlast : k.lastOf str (2 ^ 16) (k.lookupTss s) = .ok none ∨
            ∃ i, live i ∧ k.lastOf str (2 ^ 16) (k.lookupTss s) = .ok (some (k.ad i).base) :=
          lastOf_spec hrest (fun x hx => (hnodes x (List.mem_cons_of_mem s hx)).2) (by omega)
            ⟨s >>> 3, (hnodes s List.mem_cons_self).2, rfl⟩
        obtain hon | ⟨j, hj, hend⟩ := hlast
        · rw [hon]
          exact ⟨k, rfl, .refl live k⟩
        · rw [hend]
          exact ⟨_, rfl, happ (touchesTasks_update hj)⟩

theorem waitpid_confined_iff (hqueues : k.QueuesTasks live) (hstr : live (str >>> 3)) :
    k.Confined live pid (k.waitpid str pid) ↔ k.lookupTss pid = 0 ∨ live (pid >>> 3) := by
  rw [waitpid]
  by_cases hzero : k.lookupTss pid = 0
  · rw [if_neg (not_not_intro hzero)]
    exact iff_of_true (.inl rfl) (.inl hzero)
  · rw [if_pos hzero, or_iff_right hzero, Confined]
    constructor
    · rintro (hret | ⟨hlive, _⟩)
      · obtain ⟨k', _, hret⟩ := bind_eq_ok.mp hret
        exact nomatch hret
      · exact hlive
    · intro hlive
      obtain ⟨k', hret, htouches⟩ := queueAppend_spec hqueues hlive hstr
      refine .inr ⟨hlive, k', ?_, htouches⟩
      rw [lookupTss, hret, ok_bind]

theorem schedSetparam_confined_iff :
    k.Confined live pid (k.schedSetparam pid p) ↔ k.lookupTss pid = 0 ∨
      live (pid >>> 3) ∧ (p.schedPriority = -1 → p.Divides) := by
  rw [schedSetparam]
  by_cases hzero : k.lookupTss pid = 0
  · rw [if_neg (not_not_intro hzero)]
    exact iff_of_true (.inl rfl) (.inl hzero)
  · rw [if_pos hzero, or_iff_right hzero, Confined]
    constructor
    · rintro (hret | ⟨hlive, k', hret, _⟩)
      · obtain ⟨priority, _, hret⟩ := bind_eq_ok.mp hret
        exact nomatch hret
      · refine ⟨hlive, fun hwindow => ?_⟩
        obtain ⟨priority, hprio, _⟩ := bind_eq_ok.mp hret
        rw [SchedParam.priority, if_pos hwindow] at hprio
        by_contra hnot
        rw [if_neg hnot] at hprio
        exact nomatch hprio
    · rintro ⟨hlive, hdivides⟩
      have hprio : ∃ priority, p.priority = .ok priority := by
        rw [SchedParam.priority]
        split
        · rename_i hwindow
          exact ⟨_, if_pos (hdivides hwindow)⟩
        · exact ⟨_, rfl⟩
      obtain ⟨priority, hprio⟩ := hprio
      refine .inr ⟨hlive, k.setPriority (k.lookupTss pid) priority, ?_, touchesTasks_update hlive⟩
      rw [hprio, ok_bind]

end Kernel

/-- The entry is no segment of a CPU and no TSS of a CPU, or it lies behind the GDT and holds a
base of 0. -/
def Gdt.Rejects (g : Gdt) (i : Nat) : Prop :=
  if i < 256 then g.use i ≠ .perCpu ∧ g.use i ≠ .cpuTss else (g.ad i).base = 0

instance (g : Gdt) (i : Nat) : Decidable (g.Rejects i) := by
  unfold Gdt.Rejects
  infer_instance

def Gdt.Live (g : Gdt) (i : Nat) : Prop := i < 256 ∧ g.use i = .task

instance (g : Gdt) (i : Nat) : Decidable (g.Live i) := inferInstanceAs (Decidable (_ ∧ _))

theorem Gdt.Accounted.zero_or_live_iff {g : Gdt} (h : g.Accounted) (i : Nat) :
    (g.ad i).base = 0 ∨ g.Live i ↔ g.Rejects i := by
  rw [Gdt.Live, Gdt.Rejects]
  split
  · rename_i hi
    have hbased := h.based i hi
    rw [Gdt.Use.Based] at hbased
    cases huse : g.use i <;> simp_all
  · rename_i hi
    simp [hi]

/-- Over every life of the GDT: which task ids the two calls handle as they should. -/
theorem task_calls_confined_iff (g : Gdt) (hg : g.Reachable) (tss : Nat → QuestTss)
    (hqueues : Kernel.QueuesTasks g.Live ⟨g.ad, tss⟩) (str : Nat) (hstr : g.Live (str >>> 3))
    (pid : Nat) (p : SchedParam) :
    (Kernel.Confined g.Live ⟨g.ad, tss⟩ pid (Kernel.waitpid ⟨g.ad, tss⟩ str pid) ∧
      Kernel.Confined g.Live ⟨g.ad, tss⟩ pid (Kernel.schedSetparam ⟨g.ad, tss⟩ pid p)) ↔
    g.Rejects (pid >>> 3) ∧ (g.Live (pid >>> 3) → p.schedPriority = -1 → p.Divides) := by
  have hiff := hg.accounted.zero_or_live_iff (pid >>> 3)
  have hdisjoint : (g.ad (pid >>> 3)).base = 0 → ¬g.Live (pid >>> 3) := by
    intro hzero hlive
    have hbased := (hg.accounted.based _ hlive.1).mpr (by rw [hlive.2]; decide)
    exact hbased hzero
  rw [Kernel.waitpid_confined_iff hqueues hstr, Kernel.schedSetparam_confined_iff,
    Kernel.lookupTss, ← hiff]
  tauto

def oneTask : Gdt where
  ad := update (Gdt.boot fun _ => .zero).ad 5 (Descriptor.zero.setTss 0xFFF 0xFFC40000)
  use := update (Gdt.boot fun _ => .zero).use 5 .task

theorem oneTask_reachable : oneTask.Reachable :=
  ⟨fun _ => .zero, .tail (e := .allocTss 0xFFC40000) .refl (by decide) rfl⟩

theorem task_calls_confined_iff_one_task :
    (Kernel.Confined oneTask.Live ⟨oneTask.ad, fun _ => ⟨0, 0, 0⟩⟩ 0x28
        (Kernel.waitpid ⟨oneTask.ad, fun _ => ⟨0, 0, 0⟩⟩ 0x28 0x28) ∧
      Kernel.Confined oneTask.Live ⟨oneTask.ad, fun _ => ⟨0, 0, 0⟩⟩ 0x28
        (Kernel.schedSetparam ⟨oneTask.ad, fun _ => ⟨0, 0, 0⟩⟩ 0x28 ⟨7, 0, 0, 0⟩)) ↔
    oneTask.Rejects (0x28 >>> 3) ∧
      (oneTask.Live (0x28 >>> 3) → (7 : Int) = -1 → SchedParam.Divides ⟨7, 0, 0, 0⟩) :=
  task_calls_confined_iff oneTask oneTask_reachable (fun _ => ⟨0, 0, 0⟩)
    (fun _ _ => ⟨[], rfl, by simp⟩) 0x28 (by decide) 0x28 ⟨7, 0, 0, 0⟩

def oneSegment : Gdt where
  ad := update (Gdt.boot fun _ => .zero).ad 5 (.perCpu 0xFFC50000 0xFFF)
  use := update (Gdt.boot fun _ => .zero).use 5 .perCpu

theorem sched_setparam_writes_per_cpu_segment :
    oneSegment.Reachable ∧ oneSegment.use (0x28 >>> 3) = .perCpu ∧
      Kernel.schedSetparam ⟨oneSegment.ad, fun _ => ⟨0, 0, 0⟩⟩ 0x28 ⟨5, 0, 0, 0⟩ =
        .ok (0, Kernel.setPriority ⟨oneSegment.ad, fun _ => ⟨0, 0, 0⟩⟩ 0xFFC50000 5) :=
  ⟨⟨fun _ => .zero, .tail (e := .percpuPerCpuInit 0xFFC50000 0xFFF) .refl (by decide) rfl⟩, rfl,
    rfl⟩

end Quest.Task
