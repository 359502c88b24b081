import Quest.Blocking.Apart
import Quest.Sched.Selection

/-! `process_sleepqueue` takes the tasks that it wakes off the queue.  A wakeup clears the `next`
field of the task and writes to that of the last task of a runqueue. -/
namespace Quest.Blocking.Sleepqueue

open Lib.LinkedList Sched.Hooks Sched.Queue Sched.Core Sched.Rules Sched.Refinement List Function
open Sched.Budgets Sched.Progress Sched.Vcpus
open Model Apart

variable {σ τ ι κ α : Type} {n : Nat} [DecidableEq τ]

section Binding

variable {cfg : Config σ τ n} {type : Fin n → VcpuType} {l l' : Links τ n} {s s' : Scheduler σ τ n}
  {task : τ} {p : Nat} {tsc : WakeupTsc}

theorem assignVcpu_following {fuel cpu : Nat} {assigned : Nat × Nat}
    (h : assignVcpu type fuel cpu = .ok assigned) : assigned.2 < n := by
  induction fuel generalizing cpu with
  | zero => cases h
  | succ fuel ih =>
    obtain ⟨v, -, h⟩ := bind_eq_ok.mp h
    split at h
    · cases h
      have hv := v.isLt
      split <;> omega
    · exact ih h

structure Bound (l l' : Links τ n) (task : τ) : Prop where
  other : ∀ t, t ≠ task → l'.binding t = l.binding t
  following : l.nextVcpuBinding < n → l'.nextVcpuBinding < n

theorem bindTask_bound (h : l.bindTask type task = .ok l') : Bound l l' task := by
  unfold Links.bindTask at h
  split at h
  · obtain ⟨assigned, hassigned, h⟩ := bind_eq_ok.mp h
    cases h
    exact ⟨fun t ht => update_of_ne ht _ _, fun _ => assignVcpu_following hassigned⟩
  · cases h
    exact ⟨fun _ _ => rfl, id⟩

variable [Fintype τ]

theorem vcpuWakeup_bound (h : s.vcpuWakeup cfg p task tsc = .ok s') :
    Bound s.toLinks s'.toLinks task := by
  obtain ⟨⟨v, s1⟩, hready, h⟩ := bind_eq_ok.mp h
  obtain ⟨server, -, h⟩ := bind_eq_ok.mp h
  cases h
  rw [(preempt_unmoved cfg (s1.setServer v server) p v).links]
  obtain ⟨⟨u, l⟩, henq, hready⟩ := bind_eq_ok.mp hready
  obtain ⟨server1, -, hready⟩ := bind_eq_ok.mp hready
  cases hready
  obtain ⟨l0, hbind, henq⟩ := bind_eq_ok.mp henq
  obtain ⟨w, -, henq⟩ := bind_eq_ok.mp henq
  obtain ⟨l1, hrunqueue, henq⟩ := bind_eq_ok.mp henq
  obtain ⟨l2, hqueue, henq⟩ := bind_eq_ok.mp henq
  cases henq
  obtain ⟨runqueue, -, hrunqueue⟩ := bind_eq_ok.mp hrunqueue
  obtain ⟨queue, -, hqueue⟩ := bind_eq_ok.mp hqueue
  cases hrunqueue
  cases hqueue
  obtain ⟨hother, hfollowing⟩ := bindTask_bound hbind
  exact ⟨hother, hfollowing⟩

theorem bindable_next {t : τ} (h : s.vcpuWakeup cfg p task tsc = .ok s') (ht : t ≠ task)
    (hbound : Bindable cfg s t) : Bindable cfg s' t := by
  obtain ⟨hother, hfollowing⟩ := vcpuWakeup_bound h
  unfold Bindable
  rw [hother t ht]
  exact hbound.imp_right fun ⟨hunbound, hnext, hmain⟩ => ⟨hunbound, hfollowing hnext, hmain⟩

end Binding

section Walk

variable [DecidableEq ι] [DecidableEq κ] [Fintype τ] {cfg : Config σ τ n}
  {k k1 k' : Kernel σ τ ι κ α n} {b b1 b' : Board τ (Fin n) Nat} {p now : Nat}
  {tsc : τ → WakeupTsc} {task : τ} {xs ys : List τ}

structure Asleep (cfg : Config σ τ n) (k : Kernel σ τ ι κ α n) (b : Board τ (Fin n) Nat)
    (sleepers : List τ) : Prop where
  sound : Sound cfg k.sched.toLinks b
  queue : Chain k.sched.next (k.waitq .sleepqueue) sleepers
  apart : ∀ v t, t ∈ b.tasks v → t ∉ sleepers

/-- The scheduler gets from `s` to `s'` by wakeups of these tasks, in this order.
Between them only `next` fields are written. -/
inductive Wakes (cfg : Config σ τ n) (p : Nat) (tsc : τ → WakeupTsc) :
    List τ → Scheduler σ τ n → Scheduler σ τ n → Prop where
  | nil (s : Scheduler σ τ n) (next : τ → Option τ) : Wakes cfg p tsc [] s { s with next := next }
  | cons {s s₁ s' : Scheduler σ τ n} {t : τ} {ts : List τ} (next : τ → Option τ) :
      s.vcpuWakeup cfg p t (tsc t) = .ok s₁ → Wakes cfg p tsc ts { s₁ with next := next } s' →
        Wakes cfg p tsc (t :: ts) s s'

structure Processed (cfg : Config σ τ n) (p now : Nat) (tsc : τ → WakeupTsc)
    (k : Kernel σ τ ι κ α n) (b : Board τ (Fin n) Nat) (xs rest : List τ)
    (k' : Kernel σ τ ι κ α n) (b' : Board τ (Fin n) Nat) : Prop where
  asleep : Asleep cfg k' b' (xs ++ rest.filter fun t => now < k.time t)
  woken : Wakes cfg p tsc (rest.filter fun t => k.time t ≤ now) k.sched k'.sched
  tasks : ∀ v : Fin n, b'.tasks v = b.tasks v ++
    (rest.filter fun t => k.time t ≤ now).filter fun t => k'.sched.binding t = v
  bound : ∀ t, k.sched.binding t ≠ 0xFF → k'.sched.binding t = k.sched.binding t
  time : ∀ t, k'.time t = if t ∈ rest ∧ k.time t ≤ now then 0 else k.time t
  waitq : ∀ q, q ≠ .sleepqueue → k'.waitq q = k.waitq q
  next : ∀ t, t ∉ xs ++ rest → (∀ v, t ∉ b.tasks v) → k'.sched.next t = k.sched.next t

def released (k : Kernel σ τ ι κ α n) (s' : Scheduler σ τ n) (xs : List τ) (task : τ) :
    Kernel σ τ ι κ α n :=
  let stored := store s'.next (k.waitq .sleepqueue) (linkAfter none xs) (k.sched.next task)
  { k with
    sched := { s' with next := stored.2 }
    waitq := update k.waitq .sleepqueue stored.1
    time := update k.time task 0 }

omit [Fintype τ] in
theorem Asleep.release {s' : Scheduler σ τ n} {v : Fin n} (h : Asleep cfg k b (xs ++ task :: ys))
    (hwoken : Woken cfg k.sched s' b task v) :
    Asleep cfg (released k s' xs task) (b.wake cfg.cpu task v) (xs ++ ys) := by
  have hnodup := nodup_append.mp h.queue.nodup
  have htask : task ∉ xs := fun hmem => hnodup.2.2 task hmem task mem_cons_self rfl
  have hrest : ∀ x ∈ xs ++ ys, x ∈ xs ++ task :: ys ∧ x ≠ task := by
    intro x hx
    have hcons := nodup_middle.mp h.queue.nodup
    refine ⟨by simp at hx ⊢; tauto, ?_⟩
    rintro rfl
    exact (nodup_cons.mp hcons).1 hx
  refine ⟨?_, ?_, ?_⟩
  · apply hwoken.sound.setNext
    intro u t hmem
    apply store_frame
    rcases mem_wake_tasks.mp hmem with hold | ⟨-, rfl⟩
    · intro hxs
      exact h.apart u t hold (mem_append_left _ hxs)
    · exact htask
  · have hunlink := h.queue.unlink.congr fun x hx => store_congr (k.waitq .sleepqueue)
      (linkAfter none xs) (k.sched.next task)
      (hwoken.next x (fun u hu => h.apart u x hu (hrest x hx).1) (hrest x hx).2)
    rw [← store_head k.sched.next s'.next] at hunlink
    simpa [released] using hunlink
  · intro u t ht hmem
    rcases mem_wake_tasks.mp ht with hold | ⟨-, rfl⟩
    · exact h.apart u t hold (hrest t hmem).1
    · exact (hrest t hmem).2 rfl

omit [DecidableEq ι] [DecidableEq κ] in
theorem Processed.done (h : Asleep cfg k b xs) : Processed cfg p now tsc k b xs [] k b where
  asleep := by simpa using h
  woken := .nil k.sched k.sched.next
  tasks := by simp
  bound _ _ := rfl
  time := by simp
  waitq _ _ := rfl
  next _ _ _ := rfl

omit [DecidableEq ι] [DecidableEq κ] in
theorem Processed.stay (hlater : now < k.time task)
    (h : Processed cfg p now tsc k b (xs ++ [task]) ys k' b') :
    Processed cfg p now tsc k b xs (task :: ys) k' b' := by
  have hdue : ¬k.time task ≤ now := not_le.mpr hlater
  obtain ⟨hsleep, hwoken, htasks, hbound, htime, hwaitq, hnext⟩ := h
  rw [append_assoc, singleton_append] at hsleep hnext
  refine ⟨?_, ?_, ?_, hbound, ?_, hwaitq, hnext⟩
  · rw [filter_cons_of_pos (by simpa using hlater)]
    exact hsleep
  · rw [filter_cons_of_neg (by simpa using hdue)]
    exact hwoken
  · rw [filter_cons_of_neg (by simpa using hdue)]
    exact htasks
  · intro t
    rw [htime t]
    by_cases ht : t = task
    · subst ht
      simp [hdue]
    · simp [ht]

theorem Processed.release {s' : Scheduler σ τ n} {v : Fin n} (hdue : k.time task ≤ now)
    (hsleep : Asleep cfg k b (xs ++ task :: ys))
    (hwake : k.sched.vcpuWakeup cfg p task (tsc task) = .ok s')
    (hwoken : Woken cfg k.sched s' b task v)
    (h : Processed cfg p now tsc (released k s' xs task) (b.wake cfg.cpu task v) xs ys k' b') :
    Processed cfg p now tsc k b xs (task :: ys) k' b' := by
  have hnodup := nodup_middle.mp hsleep.queue.nodup
  have htask : task ∉ ys := fun hmem =>
    (nodup_cons.mp hnodup).1 (mem_append_right _ hmem)
  have htime : ∀ t ∈ ys, (released k s' xs task).time t = k.time t := by
    intro t ht
    apply update_of_ne
    rintro rfl
    exact htask ht
  have hfilter : (ys.filter fun t => (released k s' xs task).time t ≤ now) =
      ys.filter fun t => k.time t ≤ now :=
    filter_congr fun t ht => by rw [htime t ht]
  have hkept : (ys.filter fun t => now < (released k s' xs task).time t) =
      ys.filter fun t => now < k.time t :=
    filter_congr fun t ht => by rw [htime t ht]
  -- The task is bound to `v` from its wakeup on.
  have hv : s'.binding task = v := hwoken.sound.bound v task (mem_wake_tasks.mpr (.inr ⟨rfl, rfl⟩))
  have hfits := cfg.unbound_free
  have hbind : k'.sched.binding task = v := by
    rw [h.bound task (show s'.binding task ≠ 0xFF by omega)]
    exact hv
  refine ⟨?_, ?_, ?_, ?_, ?_, ?_, ?_⟩
  · rw [filter_cons_of_neg (by simpa using hdue), ← hkept]
    exact h.asleep
  · rw [filter_cons_of_pos (by simpa using hdue), ← hfilter]
    exact .cons _ hwake h.woken
  · intro u
    have hout : task ∉ b.tasks u := fun hmem => hsleep.apart u task hmem (by simp)
    rw [h.tasks u, hfilter, filter_cons_of_pos (by simpa using hdue)]
    by_cases hu : u = v
    · subst hu
      simp [Board.wake, appendAbsent, hout, hbind]
    · have hne : k'.sched.binding task ≠ u := by
        rw [hbind]
        exact fun heq => hu (Fin.ext heq.symm)
      simp [Board.wake, hu, hne]
  · intro t ht
    have hsame := hwoken.binding t ht
    rw [h.bound t (show s'.binding t ≠ 0xFF by rwa [hsame])]
    exact hsame
  · intro t
    rw [h.time t]
    by_cases ht : t = task
    · subst ht
      simp [released, htask, hdue]
    · by_cases hmem : t ∈ ys
      · simp [hmem, htime t hmem]
      · simp [released, ht, hmem]
  · intro q hq
    rw [h.waitq q hq]
    exact update_of_ne hq _ _
  · intro t ht hfree
    have hne : t ≠ task := by
      rintro rfl
      exact ht (by simp)
    have hxs : t ∉ xs := fun hmem => ht (mem_append_left _ hmem)
    have hys : t ∉ xs ++ ys := fun hmem => ht (by simp at hmem ⊢; tauto)
    rw [h.next t hys]
    · simp only [released]
      rw [store_frame _ _ _ _ hxs]
      exact hwoken.next t hfree hne
    · intro u hmem
      rcases mem_wake_tasks.mp hmem with hold | ⟨-, heq⟩
      · exact hfree u hold
      · exact hne heq

variable {good : Fin n → σ → Prop}

theorem sleepLoop_processed {fuel : Nat} (hhooks : ∀ v, Responsive (cfg.hooks v) (good v))
    (hread : ∀ t, (tsc t).unblock.first ≤ (tsc t).unblock.second)
    (h : Asleep cfg k b (xs ++ task :: ys)) (hgood : ∀ v, good v (k.sched.servers v))
    (hbindable : ∀ t ∈ task :: ys, Bindable cfg k.sched t) (hfuel : ys.length < fuel) :
    ∃ k' b', Kernel.sleepLoop cfg p now tsc fuel (linkAfter none xs) task k = .ok k' ∧
      Processed cfg p now tsc k b xs (task :: ys) k' b' := by
  induction fuel generalizing k b xs ys task with
  | zero => exact absurd hfuel (Nat.not_lt_zero _)
  | succ fuel ih =>
    have hrest : Chain k.sched.next (k.sched.next task) ys := h.queue.of_mem
    have htarget : follow k.sched.next (k.waitq .sleepqueue) (linkAfter none xs) = some task :=
      (follow_linkAfter none h.queue).1
    -- What the loop does with the rest of the queue, in the state that the body leaves.
    have hnext : ∀ (k1 : Kernel σ τ ι κ α n) b1 xs1, Asleep cfg k1 b1 (xs1 ++ ys) →
        (∀ v, good v (k1.sched.servers v)) → (∀ t ∈ ys, Bindable cfg k1.sched t) →
        ∃ k' b', (k.sched.next task = none → k1 = k') ∧
          (∀ y, k.sched.next task = some y → (do
            let task ← deref (follow k1.sched.next (k1.waitq .sleepqueue) (linkAfter none xs1))
            Kernel.sleepLoop cfg p now tsc fuel (linkAfter none xs1) task k1) = .ok k') ∧
          Processed cfg p now tsc k1 b1 xs1 ys k' b' := by
      intro k1 b1 xs1 h1 hgood1 hbindable1
      cases ys with
      | nil =>
        rw [chain_nil] at hrest
        rw [append_nil] at h1
        refine ⟨k1, b1, fun _ => rfl, fun y hy => ?_, .done h1⟩
        rw [hrest] at hy
        cases hy
      | cons y ys =>
        have hfollow : follow k1.sched.next (k1.waitq .sleepqueue) (linkAfter none xs1) = some y :=
          (follow_linkAfter none h1.queue).1
        obtain ⟨k', b', hloop, hproc⟩ := ih h1 hgood1 hbindable1 (by simpa using hfuel)
        refine ⟨k', b', fun hnone => ?_, fun _ _ => ?_, hproc⟩
        · rw [hrest.1] at hnone
          cases hnone
        · rw [hfollow, deref_some, ok_bind]
          exact hloop
    rw [Kernel.sleepLoop]
    by_cases hdue : k.time task ≤ now
    · obtain ⟨s', hwake⟩ := vcpuWakeup_returns hhooks hgood p (tsc task) (hread task) h.sound
        (hbindable task mem_cons_self)
      obtain ⟨v, hwoken, hrenew⟩ := vcpuWakeup_refines h.sound hwake
      have hgood' := renewed_good hhooks hgood (hread task) hrenew
      have hnodup := nodup_middle.mp h.queue.nodup
      have hbindable' : ∀ t ∈ ys, Bindable cfg (released k s' xs task).sched t := by
        intro t ht
        have hne : t ≠ task := by
          rintro rfl
          exact (nodup_cons.mp hnodup).1 (mem_append_right _ ht)
        have hbound := bindable_next hwake hne (hbindable t (mem_cons_of_mem task ht))
        exact hbound
      obtain ⟨k', b', hnone, hsome, hproc⟩ :=
        hnext (released k s' xs task) _ xs (h.release hwoken) hgood' hbindable'
      refine ⟨k', b', ?_, hproc.release hdue h hwake hwoken⟩
      simp only [if_pos hdue, htarget, deref_some, ok_bind, Kernel.wakeup, hwake]
      split
      · exact congrArg _ (hnone (by assumption))
      · exact hsome _ (by assumption)
    · have hlater : now < k.time task := Nat.lt_of_not_le hdue
      have h1 : Asleep cfg k b ((xs ++ [task]) ++ ys) := by simpa using h
      obtain ⟨k', b', hnone, hsome, hproc⟩ := hnext k b (xs ++ [task]) h1 hgood
        fun t ht => hbindable t (mem_cons_of_mem task ht)
      refine ⟨k', b', ?_, hproc.stay hlater⟩
      have hlink : linkAfter none (xs ++ [task]) = some task := by simp [linkAfter]
      rw [hlink] at hsome
      simp only [if_neg hdue, ok_bind]
      split
      · exact congrArg _ (hnone (by assumption))
      · exact hsome _ (by assumption)

variable {cfg : Config Budget τ n} {k : Kernel Budget τ ι κ α n}

/-- The tasks whose time has come are woken, each once and in order, and the others stay in
theirs. -/
theorem due_sleepers_woken (htyped : Typed cfg) {sleepers : List τ}
    (hsound : Sound cfg k.sched.toLinks (board k.sched.toLinks))
    (hqueue : Chain k.sched.next (k.waitq .sleepqueue) sleepers)
    (hapart : ∀ v, ∀ t ∈ members k (.inl v), t ∉ sleepers)
    (hservers : ∀ v, Kept cfg v (k.sched.servers v))
    (hbindable : ∀ t ∈ sleepers, Bindable cfg k.sched t)
    (hread : ∀ t, (tsc t).unblock.first ≤ (tsc t).unblock.second) (p now : Nat) :
    ∃ k', k.processSleepqueue cfg p now tsc = .ok k' ∧
      Wakes cfg p tsc (sleepers.filter fun t => k.time t ≤ now) k.sched k'.sched ∧
      members k' (.inr .sleepqueue) = (sleepers.filter fun t => now < k.time t) ∧
      (∀ v : Fin n, members k' (.inl v) = members k (.inl v) ++
        (sleepers.filter fun t => k.time t ≤ now).filter fun t => k'.sched.binding t = v) ∧
      (∀ t, k.sched.binding t ≠ 0xFF → k'.sched.binding t = k.sched.binding t) ∧
      (∀ t, k'.time t = if t ∈ sleepers ∧ k.time t ≤ now then 0 else k.time t) ∧
      (∀ q, q ≠ .sleepqueue → k'.waitq q = k.waitq q) ∧
      ∀ t, t ∉ sleepers → (∀ v, t ∉ members k (.inl v)) → k'.sched.next t = k.sched.next t := by
  have hasleep : Asleep cfg k (board k.sched.toLinks) sleepers := ⟨hsound, hqueue, hapart⟩
  obtain ⟨k', b', hcall, hprocessed⟩ : ∃ k' b', k.processSleepqueue cfg p now tsc = .ok k' ∧
      Processed cfg p now tsc k (board k.sched.toLinks) [] sleepers k' b' := by
    unfold Kernel.processSleepqueue
    cases sleepers with
    | nil =>
      rw [chain_nil] at hqueue
      rw [hqueue]
      exact ⟨k, _, rfl, .done hasleep⟩
    | cons task ys =>
      have hlength := hqueue.length_le
      rw [List.length_cons] at hlength
      rw [hqueue.1]
      rw [← List.nil_append (task :: ys)] at hasleep
      exact sleepLoop_processed (kept_lasting htyped).hooks hread hasleep hservers hbindable
        (by omega)
  have hboard := hprocessed.asleep.sound.board_eq
  refine ⟨k', hcall, hprocessed.woken, toList_eq hprocessed.asleep.queue, fun v => ?_,
    hprocessed.bound, hprocessed.time, hprocessed.waitq, hprocessed.next⟩
  have htasks := hprocessed.tasks v
  rw [← hboard] at htasks
  exact htasks

end Walk

/-! Three sleepers: two tasks of a Main VCPU and one of an IO VCPU. -/

section ThreeAsleep

local instance neZeroFour : NeZero 4 := ⟨by decide⟩

open Sched.Selection
open Sched.RunInvariants (inv_initial)

def threeAsleep (sched : Scheduler Budget (Fin 4) 2) : Kernel Budget (Fin 4) Unit Unit Unit 2 where
  sched := { sched with next := ![some 1, some 2, none, none] }
  waitq := update (fun _ => none) .sleepqueue (some 0)
  time := ![5, 20, 7, 0]
  semaphores _ := ⟨0, 0⟩
  circulars _ := ⟨fun _ => (), 0, 0, 0, 0⟩
  live _ := true
  blocking _ := false

theorem due_sleepers_woken_first_and_last : ∃ c k', mainAndIoBoot = some c ∧
    (threeAsleep c.sched).processSleepqueue mainAndIo 0 10 (fun _ => wakeupAt 10) = .ok k' ∧
    members k' (.inr .sleepqueue) = [1] ∧ members k' (.inl 0) = [0] ∧
    members k' (.inl 1) = [2] := by
  have hsome : (mainAndIoBoot.map fun c => (c.sched.binding 0, c.sched.binding 1,
      c.sched.binding 2)) = some (0, 0, 1) := by decide +kernel
  obtain ⟨c, hboot, hbinding⟩ := Option.map_eq_some_iff.mp hsome
  rw [Prod.mk.injEq, Prod.mk.injEq] at hbinding
  obtain ⟨hstart, hperiodic⟩ := mainAndIoBoot_start hboot
  have hempty : ∀ v, members (threeAsleep c.sched) (.inl v) = [] := by
    intro v
    simp [members, heads, threeAsleep, hstart.runqueue, toList, nodesFrom]
  have hinv : Sched.RunInvariants.Inv mainAndIo (threeAsleep c.sched).sched :=
    inv_initial { hstart with }
  have hbindable : ∀ t ∈ [0, 1, 2], Bindable mainAndIo (threeAsleep c.sched).sched t := by
    intro t ht
    simp only [List.mem_cons, List.not_mem_nil, or_false] at ht
    rcases ht with rfl | rfl | rfl
    · exact .inl ⟨0, hbinding.1⟩
    · exact .inl ⟨0, hbinding.2.1⟩
    · exact .inl ⟨1, hbinding.2.2⟩
  have hqueue : Chain (threeAsleep c.sched).sched.next ((threeAsleep c.sched).waitq .sleepqueue)
      [0, 1, 2] := by simp [threeAsleep]
  have hread : ∀ t : Fin 4, (wakeupAt 10).unblock.first ≤ (wakeupAt 10).unblock.second :=
    fun _ => Nat.le_refl 10
  obtain ⟨k', hcall, -, hsleep, hruns, hbound, -⟩ := due_sleepers_woken mainAndIo_typed hinv.1
    hqueue (by simp [hempty]) (fun v => (hperiodic v).1) hbindable hread 0 10
  have hfirst : k'.sched.binding 0 = 0 := (hbound 0 (by simp [threeAsleep, hbinding])).trans
    hbinding.1
  have hlast : k'.sched.binding 2 = 1 := (hbound 2 (by simp [threeAsleep, hbinding])).trans
    hbinding.2.2
  have hdue : ([0, 1, 2].filter fun t => (threeAsleep c.sched).time t ≤ 10) = [0, 2] := rfl
  refine ⟨c, k', hboot, hcall, hsleep, ?_, ?_⟩
  · rw [hruns 0, hempty, hdue]
    simp [hfirst, hlast]
  · rw [hruns 1, hempty, hdue]
    simp [hfirst, hlast]

end ThreeAsleep

end Quest.Blocking.Sleepqueue
