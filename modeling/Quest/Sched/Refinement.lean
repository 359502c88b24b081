import Quest.Sched.Budgets
import Quest.Sched.Rules

/-! Every call of `vcpu_wakeup`, `vcpu_schedule` and their round-robin versions is one rule,
applied to the board that the queues show. -/
namespace Quest.Sched.Refinement

open Lib.LinkedList Hooks Queue Sched.Core Budgets Rules Function Scheduler

variable {σ τ : Type} {n : Nat}

def board [Fintype τ] (l : Links τ n) : Board τ (Fin n) Nat where
  tasks v := toList l.next (l.runqueue v)
  queue p := toList l.vnext (l.vcpuQueue p)
  tr v := (l.vcpus v).tr
  current := l.vcpuCurrent

/-- The pointers form null-terminated lists that share no node. -/
structure Linked (l : Links τ n) (b : Board τ (Fin n) Nat) : Prop where
  tasks : Threaded l.next l.runqueue b.tasks
  queue : Threaded l.vnext l.vcpuQueue b.queue
  tr : ∀ v, (l.vcpus v).tr = b.tr v
  current : l.vcpuCurrent = b.current

/-- The board is consistent, a queued task is on the runqueue of its VCPU, and a VCPU that never
ran a task has no quantum. -/
structure Sound (cfg : Config σ τ n) (l : Links τ n) (b : Board τ (Fin n) Nat) : Prop
    extends Linked l b where
  consistent : Consistent cfg.cpu b
  bound : ∀ v t, t ∈ b.tasks v → l.binding t = v
  fresh : ∀ v, (l.vcpus v).tr = none → (l.vcpus v).nextSchedule = 0

theorem Linked.board_eq [Fintype τ] {l : Links τ n} {b : Board τ (Fin n) Nat} (h : Linked l b) :
    board l = b := by
  have htasks : (board l).tasks = b.tasks := funext fun v => toList_eq (h.tasks.chain v)
  have hqueue : (board l).queue = b.queue := funext fun p => toList_eq (h.queue.chain p)
  have htr : (board l).tr = b.tr := funext h.tr
  have hcur : (board l).current = b.current := h.current
  cases b
  simp only at htasks hqueue htr hcur
  rw [← htasks, ← hqueue, ← htr, ← hcur]

section Flags

variable {cfg : Config σ τ n} {l : Links τ n} {b : Board τ (Fin n) Nat}

/-- The flags of the VCPUs agree with the board. -/
structure Flagged (cfg : Config σ τ n) (l : Links τ n) (b : Board τ (Fin n) Nat) : Prop where
  runnable : ∀ v, (l.vcpus v).runnable = true ↔ b.tasks v ≠ []
  running : ∀ v, (l.vcpus v).running = true ↔ b.current (cfg.cpu v) = some v

section

variable (l : Links τ n)

@[simp] theorem setCurrent_idem (p : Nat) (u v : Option (Fin n)) :
    (l.setCurrent p u).setCurrent p v = l.setCurrent p v := by
  simp [Links.setCurrent]

theorem setVcpu_self (v : Fin n) (vcpu : Vcpu τ) :
    (l.setVcpu v vcpu).vcpus v = vcpu :=
  update_self _ _ _

theorem setVcpu_other {u v : Fin n} (vcpu : Vcpu τ) (hu : u ≠ v) :
    (l.setVcpu v vcpu).vcpus u = l.vcpus u :=
  update_of_ne hu _ _

@[simp] theorem setRunning_none (running : Bool) :
    l.setRunning none running = l := rfl

theorem setRunning_frame (vcpu : Option (Fin n)) (running : Bool) :
    (l.setRunning vcpu running).next = l.next ∧
      (l.setRunning vcpu running).binding = l.binding := by
  cases vcpu <;> exact ⟨rfl, rfl⟩

end

variable {vcpu : Option (Fin n)}

theorem setRunning_other (l : Links τ n) (running : Bool) {u : Fin n} (hu : vcpu ≠ some u)
    : (l.setRunning vcpu running).vcpus u = l.vcpus u := by
  cases vcpu with
  | none => rfl
  | some v => exact setVcpu_other l _ fun heq => hu (by rw [heq])

theorem setRunning_self (l : Links τ n) (v : Fin n) (running : Bool) :
    (l.setRunning (some v) running).vcpus v = { l.vcpus v with running := running } :=
  setVcpu_self l v _

theorem setRunning_runnable (l : Links τ n) (vcpu : Option (Fin n)) (running : Bool) (u : Fin n) :
    ((l.setRunning vcpu running).vcpus u).runnable = (l.vcpus u).runnable := by
  by_cases hu : vcpu = some u
  · rw [hu, setRunning_self]
  · rw [setRunning_other l running hu]

theorem running_switched {p : Nat} (hactive : Consistent cfg.cpu b)
    (hrun : ∀ u, (l.vcpus u).running = true ↔ b.current (cfg.cpu u) = some u)
    (hvcpu : ∀ v, vcpu = some v → cfg.cpu v = p) (u : Fin n) :
    (((l.setRunning (b.current p) false).setRunning vcpu true).vcpus u).running = true ↔
      update b.current p vcpu (cfg.cpu u) = some u := by
  by_cases hu : vcpu = some u
  · rw [hu, setRunning_self, hvcpu u hu, update_self]
    simp
  · rw [setRunning_other _ _ hu]
    by_cases hcur : b.current p = some u
    · rw [hcur, setRunning_self, (hactive.active p u hcur).1, update_self]
      simp [hu]
    · rw [setRunning_other _ _ hcur, hrun u]
      by_cases hp : cfg.cpu u = p
      · rw [hp, update_self]
        simp [hcur, hu]
      · rw [update_of_ne hp]

theorem Sound.setVcpu (h : Sound cfg l b) {v : Fin n} {vcpu : Vcpu τ}
    (htr : vcpu.tr = (l.vcpus v).tr) (hquant : vcpu.nextSchedule = (l.vcpus v).nextSchedule) :
    Sound cfg (l.setVcpu v vcpu) b := by
  have hsame : ∀ u, ((l.setVcpu v vcpu).vcpus u).tr = (l.vcpus u).tr ∧
      ((l.setVcpu v vcpu).vcpus u).nextSchedule = (l.vcpus u).nextSchedule := by
    intro u
    by_cases hu : u = v
    · rw [hu, setVcpu_self]
      exact ⟨htr, hquant⟩
    · rw [setVcpu_other l vcpu hu]
      exact ⟨rfl, rfl⟩
  refine ⟨{ h with tr := ?_ }, h.consistent, h.bound, ?_⟩
  · intro u
    rw [(hsame u).1]
    exact h.tr u
  · intro u
    rw [(hsame u).1, (hsame u).2]
    exact h.fresh u

theorem Sound.setRunning (h : Sound cfg l b) (vcpu : Option (Fin n)) (running : Bool) :
    Sound cfg (l.setRunning vcpu running) b := by
  cases vcpu with
  | none => exact h
  | some v => exact h.setVcpu rfl rfl

end Flags

section Second

variable [DecidableEq τ] [Fintype τ] {ι : Type} [DecidableEq ι] {next : τ → Option τ}
  {queue : ι → Option τ} {nodes : ι → List τ}

theorem internalSchedule_eq {runqueue : Option τ} {tasks : List τ} (h : Chain next runqueue tasks)
    (vcpu : Vcpu τ) (now quantum : Nat) : internalSchedule vcpu now quantum next runqueue =
      if vcpu.nextSchedule ≠ 0 ∧ now < vcpu.nextSchedule ∧ ∀ t, vcpu.tr = some t → t ∈ tasks then
        (vcpu, ·) <$> vcpuRemoveFromRunqueue next runqueue vcpu.tr
      else .ok ({ vcpu with tr := tasks.head?, nextSchedule := u64 (now + quantum) },
        (queueRemoveHead next runqueue).2, next) := by
  have hhead : (queueRemoveHead next runqueue).1 = tasks.head? := by
    cases tasks with
    | nil =>
      rw [show runqueue = none from h]
      rfl
    | cons t ts =>
      rw [h.1]
      rfl
  rw [internalSchedule, hhead]
  by_cases hexpired : vcpu.nextSchedule = 0 ∨ vcpu.nextSchedule ≤ now
  · rw [if_pos hexpired, if_neg (by omega)]
  · rw [if_neg hexpired, vcpuInRunqueue_spec h, ok_bind]
    simp only [decide_eq_true_eq]
    refine if_congr ⟨fun hmem => ⟨by omega, by omega, hmem⟩, fun h => h.2.2⟩ ?_ rfl
    cases vcpuRemoveFromRunqueue next runqueue vcpu.tr <;> rfl

/-- `vcpu_internal_schedule` takes the task that it makes `tr` from the runqueue.  It finds none
if there is none, or if `tr` is 0 and the quantum is not over. -/
theorem internalSchedule_spec (h : Threaded next queue nodes) (i : ι) (vcpu : Vcpu τ)
    (now quantum : Nat) :
    ∃ tr nextSchedule head next', internalSchedule vcpu now quantum next (queue i) =
        .ok ({ vcpu with tr := tr, nextSchedule := nextSchedule }, head, next') ∧
      Threaded next' (update queue i head)
        (update nodes i (tr.elim (nodes i) (nodes i).erase)) ∧
      (∀ t, tr = some t → t ∈ nodes i) ∧
      (tr = none → nodes i = [] ∨ vcpu.tr = none ∧ vcpu.nextSchedule ≠ 0) ∧
      ∀ x, x ∉ nodes i → next' x = next x := by
  rw [internalSchedule_eq (h.chain i)]
  split
  · rename_i hkeep
    obtain ⟨hquant, -, hqueued⟩ := hkeep
    refine ⟨vcpu.tr, vcpu.nextSchedule, ?_⟩
    cases htr : vcpu.tr with
    | none =>
      rw [vcpuRemoveFromRunqueue_none (h.chain i)]
      exact ⟨queue i, next, by simp [← htr], by simpa using h, nofun, fun _ => .inr ⟨rfl, hquant⟩,
        fun _ _ => rfl⟩
    | some t =>
      obtain ⟨head, next', hrem, hthreaded, hframe⟩ :=
        vcpuRemoveFromRunqueue_spec h i (hqueued t htr)
      rw [hrem]
      exact ⟨_, _, by simp [← htr], hthreaded, htr ▸ hqueued, nofun, hframe⟩
  · obtain ⟨-, htail⟩ := queueRemoveHead_spec h i
    refine ⟨_, _, _, _, rfl, ?_, ?_, ?_, fun _ _ => rfl⟩
    · cases hi : nodes i with
      | nil => simpa [hi] using htail
      | cons t ts => simpa [hi] using htail
    · exact fun t ht => List.mem_of_head? ht
    · exact fun hnone => .inl (List.head?_eq_none_iff.mp hnone)

end Second

section First

variable [DecidableEq τ] {cfg : Config σ τ n} {l l' : Links τ n} {b : Board τ (Fin n) Nat}
  {p : Nat} {v : Fin n} {t : τ} {rest : List (Fin n)}

theorem Sound.pick (h : Sound cfg l b) (hv : v ∈ b.queue p) (hrest : Requeued b p v t rest)
    (htasks : Threaded l'.next l'.runqueue (update b.tasks v ((b.tasks v).erase t)))
    (hqueue : Threaded l'.vnext l'.vcpuQueue (update b.queue p rest))
    (hvcpus : ∀ u, u ≠ v → l'.vcpus u = l.vcpus u) (htr : (l'.vcpus v).tr = some t)
    (hcur : l'.vcpuCurrent = update l.vcpuCurrent p (some v))
    (hbind : l'.binding = l.binding) : Sound cfg l' (b.pick p v t rest) where
  tasks := htasks
  queue := hqueue
  tr u := by
    change _ = update b.tr v (some t) u
    by_cases hu : u = v
    · rw [hu, htr, update_self]
    · rw [hvcpus u hu, update_of_ne hu]
      exact h.tr u
  current := by
    rw [hcur, h.current]
    rfl
  consistent := pick_consistent h.consistent hv hrest
  bound u x hx := by
    rw [hbind]
    exact h.bound u x ((mem_pick_tasks h.consistent).mp hx).1
  fresh u := by
    by_cases hu : u = v
    · rw [hu, htr]
      exact fun hnone => absurd hnone (Option.some_ne_none t)
    · rw [hvcpus u hu]
      exact h.fresh u

omit [DecidableEq τ] in
theorem Sound.setNext (h : Sound cfg l b) {next : τ → Option τ}
    (hagree : ∀ v, ∀ t ∈ b.tasks v, next t = l.next t) : Sound cfg { l with next := next } b :=
  ⟨{ h with tasks := h.tasks.congr hagree }, h.consistent, h.bound, h.fresh⟩

theorem Sound.rebind (h : Sound cfg l b) {task : τ} (hfree : ∀ v, task ∉ b.tasks v) {cpu : Nat} :
    Sound cfg { l with binding := update l.binding task cpu } b := by
  refine ⟨{ h with }, h.consistent, ?_, h.fresh⟩
  intro v t ht
  have hne : t ≠ task := by
    rintro rfl
    exact hfree v ht
  dsimp only
  rw [update_of_ne hne]
  exact h.bound v t ht

theorem Sound.idle (h : Sound cfg l b) (p : Nat) :
    Sound cfg (l.setCurrent p none) (b.idle p) where
  __ := h
  current := by
    unfold Links.setCurrent
    rw [h.current]
    rfl
  consistent := schedule_consistent h.consistent .idle

variable {xs ys : List (Fin n)}

theorem requeued_off (h : Consistent cfg.cpu b) (hp : b.queue p = xs ++ v :: ys)
    (hlast : (b.tasks v).erase t = []) : Requeued b p v t (xs ++ ys) where
  nodup := by
    have hnodup := h.orderly p
    rw [hp, List.nodup_middle] at hnodup
    exact (List.nodup_cons.mp hnodup).2
  mem u := by
    have hnodup := h.orderly p
    rw [hp, List.nodup_middle] at hnodup
    have hout := (List.nodup_cons.mp hnodup).1
    by_cases hu : u = v
    · subst hu
      simpa [hlast] using hout
    · simp [hp, hu]

theorem requeued_on (h : Consistent cfg.cpu b) (hmore : (b.tasks v).erase t ≠ []) :
    Requeued b p v t (b.queue p) where
  nodup := h.orderly p
  mem u := by simp [hmore]

variable [Fintype τ]

theorem vcpuInternalSchedule_spec (h : Sound cfg l b) (hv : v ∈ b.queue p) (now quantum : Nat) :
    ∃ t nextSchedule head next', t ∈ b.tasks v ∧
      l.vcpuInternalSchedule v now quantum = .ok { l.setVcpu v
        { l.vcpus v with tr := some t, nextSchedule := nextSchedule } with
        runqueue := update l.runqueue v head, next := next' } ∧
      Threaded next' (update l.runqueue v head)
        (update b.tasks v ((b.tasks v).erase t)) ∧
      ∀ x, x ∉ b.tasks v → next' x = l.next x := by
  obtain ⟨tr, nextSchedule, head, next', hchosen, hthreaded, hmem, hnone, hframe⟩ :=
    internalSchedule_spec h.tasks v (l.vcpus v) now quantum
  have hne := ((h.consistent.queued p v).mp hv).2
  cases tr with
  | none =>
    rcases hnone rfl with hempty | ⟨htr, hquant⟩
    · exact absurd hempty hne
    · exact absurd (h.fresh v htr) hquant
  | some t =>
    refine ⟨t, nextSchedule, head, next', hmem t rfl, ?_, hthreaded, hframe⟩
    unfold Links.vcpuInternalSchedule
    rw [hchosen, ok_bind]

omit [DecidableEq τ] [Fintype τ] in
theorem updated_head_isNone {next : τ → Option τ} {runqueue : Fin n → Option τ}
    {tasks : Fin n → List τ} {head : Option τ} {ts : List τ}
    (h : Threaded next (update runqueue v head) (update tasks v ts)) :
    head = none ↔ ts = [] := by
  have hchain := h.chain v
  rw [update_self, update_self] at hchain
  exact hchain.head_isNone

theorem dispatch_spec (h : Sound cfg l b) (accounts : Fin n → Account)
    (hp : b.queue p = xs ++ v :: ys) : ∃ t rest runnable nextSchedule queue l',
      l.dispatch cfg.quantum accounts p (l.vcpuQueue p) (some (linkAfter none xs)) =
        .ok (some v, queue, l') ∧
      t ∈ b.tasks v ∧ rest = (if (b.tasks v).erase t = [] then xs ++ ys else b.queue p) ∧
      Requeued b p v t rest ∧ Sound cfg l' (b.pick p v t rest) ∧ l'.vcpuQueue p = queue ∧
      l'.vcpus = update l.vcpus v { l.vcpus v with
        runnable := runnable, tr := some t, nextSchedule := nextSchedule } ∧
      (runnable = true ↔ (l.vcpus v).runnable = true ∧ (b.tasks v).erase t ≠ []) ∧
      l'.binding = l.binding ∧ ∀ x, x ∉ b.tasks v → l'.next x = l.next x := by
  have hv : v ∈ b.queue p := by simp [hp]
  have hrest : Chain l.vnext (follow l.vnext (l.vcpuQueue p) (linkAfter none xs)) (v :: ys) :=
    follow_linkAfter none (hp ▸ h.queue.chain p)
  obtain ⟨t, nextSchedule, head, next', ht, hchosen, htasks, hframe⟩ :=
    vcpuInternalSchedule_spec h hv (accounts v).virtualTsc (cfg.quantum v)
  have hhead := updated_head_isNone htasks
  simp only [Links.dispatch, hrest.1, deref_some, ok_bind, hchosen, Links.dequeueIdle,
    Links.setVcpu, Links.setCurrent, update_self, update_idem]
  by_cases hlast : (b.tasks v).erase t = []
  · have hoff := requeued_off h.consistent hp hlast
    simp only [if_pos (hhead.mpr hlast)]
    refine ⟨t, xs ++ ys, false, nextSchedule, _, _, rfl, ht, (if_pos hlast).symm, hoff, ?_, ?_, rfl,
      ?_, rfl, hframe⟩
    · exact h.pick hv hoff htasks (h.queue.unlink hp) (fun u hu => by simp [hu]) (by simp)
        rfl rfl
    · simp
    · simp [hlast]
  · have hon : Requeued b p v t (b.queue p) := requeued_on h.consistent hlast
    simp only [if_neg (fun hnone => hlast (hhead.mp hnone))]
    refine ⟨t, b.queue p, (l.vcpus v).runnable, nextSchedule, _, _, rfl, ht, (if_neg hlast).symm, hon,
      ?_, ?_, rfl, ?_, rfl, hframe⟩
    · exact h.pick hv hon htasks (by simpa using h.queue) (fun u hu => by simp [hu]) (by simp)
        rfl rfl
    · simp
    · simp [hlast]

end First

section Wakeup

variable [DecidableEq τ] {cfg : Config σ τ n} {l l' : Links τ n} {b : Board τ (Fin n) Nat}
  {v : Fin n} {task : τ}

theorem vcpuLookup_eq_some {i : Nat} : vcpuLookup n i = some v ↔ i = v := by
  unfold vcpuLookup
  split
  · rw [Option.some.injEq, Fin.ext_iff]
  · rename_i hi
    simp only [reduceCtorEq, false_iff]
    rintro rfl
    exact hi v.isLt

theorem bindTask_sound (h : Sound cfg l b) (hok : l.bindTask cfg.type task = .ok l') :
    Sound cfg l' b ∧ l'.vcpus = l.vcpus ∧ l'.next = l.next ∧
      ∀ t, l.binding t ≠ 0xFF → l'.binding t = l.binding t := by
  unfold Links.bindTask at hok
  split at hok
  · rename_i hunbound
    obtain ⟨assigned, -, hl'⟩ := bind_eq_ok.mp hok
    cases hl'
    have hkept : ∀ t, l.binding t ≠ 0xFF →
        update l.binding task assigned.1 t = l.binding t := by
      intro t ht
      rw [update_of_ne]
      rintro rfl
      exact ht hunbound
    refine ⟨⟨{ h with }, h.consistent, ?_, h.fresh⟩, rfl, rfl, hkept⟩
    intro u t ht
    have hbound := h.bound u t ht
    have hfits := cfg.unbound_free
    exact (hkept t (by omega)).trans hbound
  · cases hok
    exact ⟨h, rfl, rfl, fun _ _ => rfl⟩

variable [Fintype τ]

theorem append_sound (h : Sound cfg l b) (hbound : l.binding task = v) :
    ∃ l1 l2, l.vcpuRunqueueAppend v task = .ok l1 ∧ l1.pcpuQueueAppend (cfg.cpu v) v = .ok l2 ∧
      Sound cfg l2 (b.wake cfg.cpu task v) ∧ l2.vcpus = l.vcpus ∧ l2.binding = l.binding ∧
      ∀ x, x ∉ b.tasks v → x ≠ task → l2.next x = l.next x := by
  have hown : ∀ u, task ∈ b.tasks u → u = v := by
    intro u hu
    exact Fin.ext ((h.bound u task hu).symm.trans hbound)
  have hhome : ∀ q, v ∈ b.queue q → q = cfg.cpu v :=
    fun q hq => ((h.consistent.queued q v).mp hq).1.symm
  obtain ⟨runqueue, next, htask, htasks, hframe⟩ := queueAppend_spec h.tasks v task hown
  obtain ⟨queue, vnext, hvcpu, hqueue, -⟩ := queueAppend_spec h.queue (cfg.cpu v) v hhome
  rw [← vcpuQueueAppend_eq (h.queue.chain (cfg.cpu v))] at hvcpu
  refine ⟨{ l with runqueue := update l.runqueue v runqueue, next := next },
    { l with
      runqueue := update l.runqueue v runqueue, next := next
      vcpuQueue := update l.vcpuQueue (cfg.cpu v) queue, vnext := vnext }, ?_, ?_, ?_, rfl,
    rfl, hframe⟩
  · rw [Links.vcpuRunqueueAppend, htask, ok_bind]
  · rw [Links.pcpuQueueAppend, hvcpu, ok_bind]
  · refine ⟨⟨htasks, hqueue, h.tr, h.current⟩, wake_consistent h.consistent hown, ?_, h.fresh⟩
    intro u t ht
    rcases mem_wake_tasks.mp ht with hmem | ⟨rfl, rfl⟩
    · exact h.bound u t hmem
    · exact hbound

theorem enqueue_sound (h : Sound cfg l b) (hok : l.enqueue cfg task = .ok (v, l')) :
    (∀ u, task ∈ b.tasks u → u = v) ∧ Sound cfg l' (b.wake cfg.cpu task v) ∧
      l'.vcpus = l.vcpus ∧ (∀ t, l.binding t ≠ 0xFF → l'.binding t = l.binding t) ∧
      ∀ x, x ∉ b.tasks v → x ≠ task → l'.next x = l.next x := by
  unfold Links.enqueue at hok
  obtain ⟨l0, hbind, hok⟩ := bind_eq_ok.mp hok
  obtain ⟨u, hlookup, hok⟩ := bind_eq_ok.mp hok
  obtain ⟨l1, hrunqueue, hok⟩ := bind_eq_ok.mp hok
  obtain ⟨l2, hqueue, hok⟩ := bind_eq_ok.mp hok
  cases hok
  obtain ⟨hsound, hvcpus, hnext, hbinding⟩ := bindTask_sound h hbind
  have hbound : l0.binding task = v := by
    cases hfound : vcpuLookup n (l0.binding task) with
    | none =>
      rw [hfound] at hlookup
      cases hlookup
    | some u =>
      rw [hfound] at hlookup
      cases hlookup
      exact vcpuLookup_eq_some.mp hfound
  obtain ⟨l1', l2', hrunqueue', hqueue', hsound', hvcpus', hbinding', hframe⟩ :=
    append_sound hsound hbound
  rw [hrunqueue] at hrunqueue'
  cases hrunqueue'
  rw [hqueue] at hqueue'
  cases hqueue'
  refine ⟨?_, hsound', hvcpus'.trans hvcpus, ?_, ?_⟩
  · intro u hu
    exact Fin.ext ((hsound.bound u task hu).symm.trans hbound)
  · intro t ht
    rw [hbinding', hbinding t ht]
  · intro x hx hne
    rw [hframe x hx hne, hnext]

variable {s s' : Scheduler σ τ n} {unblock : Tsc}

structure Woken (cfg : Config σ τ n) (s s' : Scheduler σ τ n) (b : Board τ (Fin n) Nat) (task : τ)
    (v : Fin n) : Prop where
  own : ∀ u, task ∈ b.tasks u → u = v
  sound : Sound cfg s'.toLinks (b.wake cfg.cpu task v)
  flagged : Flagged cfg s.toLinks b → Flagged cfg s'.toLinks (b.wake cfg.cpu task v)
  next : ∀ x, (∀ u, x ∉ b.tasks u) → x ≠ task → s'.next x = s.next x
  binding : ∀ t, s.binding t ≠ 0xFF → s'.binding t = s.binding t
  str : s'.str = s.str
  idle : s'.vcpuIdleTask = s.vcpuIdleTask
  tprev : s'.pcpuTprev = s.pcpuTprev

theorem makeRunnable_refines (h : Sound cfg s.toLinks b)
    (hok : s.makeRunnable cfg task unblock = .ok (v, s')) :
    Woken cfg s s' b task v ∧ ∃ server,
      (if !(s.vcpus v).runnable && !(s.vcpus v).running then
        (cfg.hooks v).unblock (s.servers v) unblock else .ok (s.servers v)) = .ok server ∧
      s'.servers = update s.servers v server := by
  unfold makeRunnable at hok
  obtain ⟨⟨u, l⟩, henq, hok⟩ := bind_eq_ok.mp hok
  obtain ⟨server, hserver, hok⟩ := bind_eq_ok.mp hok
  cases hok
  obtain ⟨hown, hsound, hvcpus, hbind, hframe⟩ := enqueue_sound h henq
  rw [hvcpus] at hserver
  refine ⟨⟨hown, hsound.setVcpu rfl rfl, fun hflags => ⟨?_, ?_⟩, ?_, hbind, rfl, rfl, rfl⟩,
    server, hserver, rfl⟩
  · intro u
    simp only [setServer, hvcpus]
    by_cases hu : u = v
    · subst hu
      have hne : appendAbsent (b.tasks u) task ≠ [] :=
        List.ne_nil_of_mem (mem_appendAbsent.mpr (.inr rfl))
      simp [setVcpu_self, Board.wake, hne]
    · rw [setVcpu_other _ _ hu, hvcpus, hflags.runnable]
      simp [Board.wake, hu]
  · intro u
    simp only [setServer, hvcpus]
    by_cases hu : u = v
    · subst hu
      rw [setVcpu_self]
      exact hflags.running u
    · rw [setVcpu_other _ _ hu, hvcpus]
      exact hflags.running u
  · exact fun x hx hne => hframe x (hx v) hne

/-- `vcpu_wakeup` is a rule, for the VCPU that the task is bound to. -/
theorem vcpuWakeup_refines {p : Nat} {tsc : WakeupTsc} (h : Sound cfg s.toLinks b)
    (hstep : s.vcpuWakeup cfg p task tsc = .ok s') :
    ∃ v, Woken cfg s s' b task v ∧ Renewed cfg s s' v tsc := by
  obtain ⟨⟨v, s1⟩, hready, hstep⟩ := bind_eq_ok.mp hstep
  obtain ⟨server, hupdate, hstep⟩ := bind_eq_ok.mp hstep
  cases hstep
  obtain ⟨hlinks, hstr, hidle, htprev⟩ := preempt_unmoved cfg (s1.setServer v server) p v
  obtain ⟨hwoken, unblocked, hunblock, hservers⟩ := makeRunnable_refines h hready
  refine ⟨v, ⟨hwoken.own, ?_, ?_, ?_, ?_, hstr.trans hwoken.str, hidle.trans hwoken.idle,
    htprev.trans hwoken.tprev⟩, ⟨unblocked, hunblock, ?_⟩, ?_⟩
  · rw [hlinks]
    exact hwoken.sound
  · rw [hlinks]
    exact hwoken.flagged
  · rw [hlinks]
    exact hwoken.next
  · rw [hlinks]
    exact hwoken.binding
  · rw [hservers, update_self] at hupdate
    simpa [setServer] using hupdate
  · intro u hu
    simp [setServer, hservers, hu]

end Wakeup

section Schedule

variable [DecidableEq τ] [Fintype τ] {cfg : Config σ τ n} {s s' : Scheduler σ τ n}
  {b : Board τ (Fin n) Nat} {p : Nat} {tsc : ScheduleTsc n}

structure Switched (cfg : Config σ τ n) (s s' : Scheduler σ τ n) (p : Nat) (l : Links τ n)
    (vcpu : Option (Fin n)) : Prop where
  task : ∀ v t, vcpu = some v → (l.vcpus v).tr = some t →
    s'.toLinks = (l.setRunning (s.vcpuCurrent p) false).setRunning vcpu true ∧
      s'.str = update s.str p (some t)
  idle : (∀ v, vcpu = some v → (l.vcpus v).tr = none) →
    s'.toLinks = ((l.setCurrent p none).setRunning (s.vcpuCurrent p) false).setRunning vcpu true ∧
      s'.str = update s.str p (some ((s.vcpuIdleTask p).getD (cfg.idleTss p)))
  idleTask : ∀ q t, s'.vcpuIdleTask q = some t → s.vcpuIdleTask q = some t ∨ t = cfg.idleTss q

variable {x : Scheduler.Outcome σ τ n}

theorem pass_cases (h : s.pass cfg p tsc = .ok x) :
    ∃ s0 best vcpu queue l tdelta, s.endTimeslice cfg p tsc = .ok s0 ∧
      s0.selectVcpu cfg (s.vcpuQueue p) tsc = .ok best ∧
      s.toLinks.dispatch cfg.quantum s0.accounts p (s.vcpuQueue p) best.vnext =
        .ok (vcpu, queue, l) ∧
      eventDelta cfg { s0 with toLinks := l, servers := best.servers } tsc best.Tnext
        vcpu queue = .ok tdelta ∧
      x = ⟨s0.servers, vcpu, { s0 with toLinks := l, servers := best.servers }, tdelta⟩ := by
  unfold Scheduler.pass at h
  obtain ⟨s0, hslice, h⟩ := bind_eq_ok.mp h
  obtain ⟨best, hbest, h⟩ := bind_eq_ok.mp h
  obtain ⟨⟨vcpu, queue, l⟩, hdisp, h⟩ := bind_eq_ok.mp h
  obtain ⟨tdelta, hdelta, h⟩ := bind_eq_ok.mp h
  cases h
  rw [(endTimeslice_unmoved hslice).links] at hbest hdisp
  exact ⟨s0, best, vcpu, queue, l, tdelta, hslice, hbest, hdisp, hdelta, rfl⟩

omit [DecidableEq τ] [Fintype τ] in
theorem finish_switched (hstr : x.left.str = s.str) (hidle : x.left.vcpuIdleTask = s.vcpuIdleTask) :
    Switched cfg s (s.finish cfg p tsc x) p x.left.toLinks x.vcpu := by
  obtain ⟨charged, vcpu, left, tdelta⟩ := x
  obtain ⟨hlinks1, hstr1, hidle1, -⟩ := setTimer_unmoved cfg left p vcpu tdelta
  refine ⟨?_, ?_, ?_⟩
  · rintro v t rfl htr
    simp only at htr hstr
    simp [finish, switchTo, acntBeginTimeslice,
      setAccount, hlinks1, hstr1, htr, hstr]
  · intro hnone
    simp only at hstr hidle
    cases vcpu with
    | none =>
      simp [finish, switchTo, hlinks1, hstr1, hidle1, hstr, hidle]
    | some v =>
      have htr := hnone v rfl
      simp only at htr
      simp [finish, switchTo, acntBeginTimeslice,
        setAccount, hlinks1, hstr1, hidle1, htr, hstr, hidle]
  · intro q t ht
    rw [← hidle, ← hidle1]
    cases vcpu with
    | none => exact switchTo_idleTask cfg _ p none ht
    | some v => exact switchTo_idleTask cfg (acntBeginTimeslice _ v tsc.acntBegin) p _ ht

theorem vcpuSchedule_cases (h : s.vcpuSchedule cfg p tsc = .ok s') :
    ∃ servers accounts vnext vcpu queue l, Charged cfg s p tsc servers ∧
      s.toLinks.dispatch cfg.quantum accounts p (s.vcpuQueue p) vnext = .ok (vcpu, queue, l) ∧
      (∀ nodes, Chain s.vnext (s.vcpuQueue p) nodes → ∃ chosen, Points none nodes vnext chosen ∧
        Refreshed cfg tsc servers s'.servers nodes chosen) ∧
      Switched cfg s s' p l vcpu ∧ s'.pcpuTprev = update s.pcpuTprev p tsc.tcur := by
  rw [vcpuSchedule_eq] at h
  obtain ⟨x, hpass, rfl⟩ := map_eq_ok.mp h
  obtain ⟨s0, best, vcpu, queue, l, tdelta, hslice, hbest, hdisp, -, rfl⟩ := pass_cases hpass
  obtain ⟨hlinks, hstr, hidle, htprev⟩ := endTimeslice_unmoved hslice
  have hframe := fun next => switchTo_frame cfg (setTimer cfg
    { s0 with toLinks := l, servers := best.servers } p vcpu tdelta) p next vcpu tsc.acntBegin
  have hunmoved := setTimer_unmoved cfg { s0 with toLinks := l, servers := best.servers } p vcpu
    tdelta
  refine ⟨s0.servers, s0.accounts, best.vnext, vcpu, queue, l, endTimeslice_charged hslice,
    hdisp, ?_, finish_switched hstr hidle, ?_⟩
  · intro nodes hnodes
    have hvnext : Chain s0.vnext (s.vcpuQueue p) nodes := by rwa [hlinks]
    obtain ⟨chosen, hpoints, hfresh⟩ := selectVcpu_spec hvnext hbest
    refine ⟨chosen, hpoints, ?_⟩
    simp only [finish]
    rw [(hframe _).1, setTimer_servers]
    exact hfresh
  · simp only [finish]
    rw [(hframe _).2, hunmoved.tprev, htprev]

/-- Nothing but the runqueue of the task that `vcpu_schedule` selects changes, and it switches to
this task or to the idle task. -/
structure Scheduled (cfg : Config σ τ n) (s s' : Scheduler σ τ n) (b b' : Board τ (Fin n) Nat)
    (p : Nat) (tsc : ScheduleTsc n) (selected : Option τ) : Prop where
  rule : Schedule b p selected b'
  sound : Sound cfg s'.toLinks b'
  flagged : Flagged cfg s.toLinks b → Flagged cfg s'.toLinks b'
  next : ∀ x, (∀ u, x ∉ b.tasks u) → s'.next x = s.next x
  binding : s'.binding = s.binding
  str : s'.str = update s.str p
    (some (selected.getD ((s.vcpuIdleTask p).getD (cfg.idleTss p))))
  idleTask : ∀ q t, s'.vcpuIdleTask q = some t → s.vcpuIdleTask q = some t ∨ t = cfg.idleTss q
  tprev : s'.pcpuTprev = update s.pcpuTprev p tsc.tcur
  budgets : ∃ servers, Charged cfg s p tsc servers ∧
    Refreshed cfg tsc servers s'.servers (b.queue p) (b'.current p)

variable {servers : Fin n → σ}

omit [Fintype τ] in
theorem idle_refines (h : Sound cfg s.toLinks b)
    (hlinks : s'.toLinks = (s.toLinks.setCurrent p none).setRunning (s.vcpuCurrent p) false)
    (hstr : s'.str = update s.str p (some ((s.vcpuIdleTask p).getD (cfg.idleTss p))))
    (hidleTask : ∀ q t, s'.vcpuIdleTask q = some t → s.vcpuIdleTask q = some t ∨ t = cfg.idleTss q)
    (htprev : s'.pcpuTprev = update s.pcpuTprev p tsc.tcur)
    (hcharge : Charged cfg s p tsc servers)
    (hfresh : Refreshed cfg tsc servers s'.servers (b.queue p) none) :
    Scheduled cfg s s' b (b.idle p) p tsc none := by
  obtain ⟨hnext, hbind⟩ := setRunning_frame (s.toLinks.setCurrent p none) (s.vcpuCurrent p) false
  have hcur : (b.idle p).current p = none := update_self _ _ _
  refine ⟨.idle, ?_, fun hflags => ⟨?_, ?_⟩, ?_, ?_, hstr, hidleTask, htprev, servers, hcharge,
    hcur ▸ hfresh⟩
  · rw [hlinks]
    exact (h.idle p).setRunning _ _
  · intro u
    rw [hlinks, setRunning_runnable]
    exact hflags.runnable u
  · have hidle : ∀ v, none = some v → cfg.cpu v = p :=
      fun v hv => absurd hv (Option.some_ne_none v).symm
    rw [hlinks, h.current]
    exact running_switched (l := s.toLinks.setCurrent p none) h.consistent hflags.running hidle
  · intro x _
    rw [hlinks, hnext]
    rfl
  · rw [hlinks, hbind]
    rfl

theorem pick_refines (h : Sound cfg s.toLinks b) {accounts : Fin n → Account} {xs ys : List (Fin n)}
    {v : Fin n} {vcpu queue : Option (Fin n)} {l : Links τ n} (hp : b.queue p = xs ++ v :: ys)
    (hdisp : s.toLinks.dispatch cfg.quantum accounts p (s.vcpuQueue p) (some (linkAfter none xs)) = .ok (vcpu, queue, l))
    (hswitch : Switched cfg s s' p l vcpu)
    (htprev : s'.pcpuTprev = update s.pcpuTprev p tsc.tcur)
    (hcharge : Charged cfg s p tsc servers)
    (hfresh : Refreshed cfg tsc servers s'.servers (b.queue p) (some v)) :
    ∃ b' t, Scheduled cfg s s' b b' p tsc (some t) := by
  obtain ⟨t, rest, runnable, nextSchedule, queue', l', heq, ht, -, hrest, hsound, -, hvcpus,
    hready, hbind, hframe⟩ := dispatch_spec h accounts hp
  cases hdisp.symm.trans heq
  have hv : v ∈ b.queue p := by simp [hp]
  have hhome := (h.consistent.queued p v).mp hv
  have htr : (l.vcpus v).tr = some t := by rw [hvcpus, update_self]
  obtain ⟨hlinks, hstr⟩ := hswitch.task v t rfl htr
  have hstop := setRunning_frame l (s.vcpuCurrent p) false
  have hstart := setRunning_frame (l.setRunning (s.vcpuCurrent p) false) (some v) true
  have hcur : (b.pick p v t rest).current p = some v := update_self _ _ _
  refine ⟨b.pick p v t rest, t, .pick hv ht hrest, ?_, fun hflags => ⟨?_, ?_⟩, ?_, ?_, hstr,
    hswitch.idleTask, htprev, servers, hcharge, hcur ▸ hfresh⟩
  · rw [hlinks]
    exact (hsound.setRunning _ _).setRunning _ _
  · intro u
    rw [hlinks, setRunning_runnable, setRunning_runnable, hvcpus]
    by_cases hu : u = v
    · rw [hu, update_self, hready, hflags.runnable]
      simp [Board.pick, hhome.2]
    · rw [update_of_ne hu, hflags.runnable]
      simp [Board.pick, hu]
  · have hflag : ∀ u, (l.vcpus u).running = (s.vcpus u).running := by
      intro u
      by_cases hu : u = v
      · rw [hu, hvcpus, update_self]
      · rw [hvcpus, update_of_ne hu]
    rw [hlinks, h.current]
    apply running_switched h.consistent
    · intro u
      rw [hflag]
      exact hflags.running u
    · intro u hu
      rw [← Option.some.inj hu]
      exact hhome.1
  · intro x hx
    rw [hlinks, hstart.1, hstop.1]
    exact hframe x (hx v)
  · rw [hlinks, hstart.2, hstop.2]
    exact hbind

theorem vcpuSchedule_refines (h : Sound cfg s.toLinks b)
    (hstep : s.vcpuSchedule cfg p tsc = .ok s') :
    ∃ b' selected, Scheduled cfg s s' b b' p tsc selected := by
  obtain ⟨servers, accounts, vnext, vcpu, queue, l, hcharge, hdisp, hselect, hswitch,
    htprev⟩ := vcpuSchedule_cases hstep
  obtain ⟨chosen, hpoints, hfresh⟩ := hselect _ (h.queue.chain p)
  rcases hpoints with ⟨rfl, rfl⟩ | ⟨xs, v, ys, hp, rfl, rfl⟩
  · cases hdisp
    obtain ⟨hlinks, hstr⟩ := hswitch.idle (fun v hv => absurd hv (Option.some_ne_none v).symm)
    rw [setRunning_none, setCurrent_idem] at hlinks
    exact ⟨b.idle p, none,
      idle_refines h hlinks hstr hswitch.idleTask htprev hcharge hfresh⟩
  · obtain ⟨b', t, hsched⟩ := pick_refines h hp hdisp hswitch htprev hcharge hfresh
    exact ⟨b', some t, hsched⟩

end Schedule

end Quest.Sched.Refinement
