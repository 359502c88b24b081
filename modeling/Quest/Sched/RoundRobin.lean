import Quest.Sched.RunInvariants

/-! The round-robin scheduler, and theorem Exhaustion of `docs/vcpu.tex`. -/
namespace Quest.Sched.RoundRobin

open Lib.LinkedList Lib.Reach Hooks Queue Sched.Core Budgets Rules Refinement RunInvariants Function

variable {σ τ : Type} {n : Nat} [DecidableEq τ] [Fintype τ]

inductive RrEvent (τ : Type) where
  | wakeup (task : τ) (unblock : Tsc)
  | schedule (p acntEnd acntBegin : Nat)
  | bind (task : τ) (cpu : Nat)

def rrStep (cfg : Config σ τ n) (s : Scheduler σ τ n) : RrEvent τ → Except Fault (Scheduler σ τ n)
  | .wakeup task unblock => s.vcpuRrWakeup cfg task unblock
  | .schedule p acntEnd acntBegin => s.vcpuRrSchedule cfg p acntEnd acntBegin
  | .bind task cpu => .ok { s with binding := update s.binding task cpu }

def RrBindingKept (s : Scheduler σ τ n) : RrEvent τ → Prop
  | .bind task _ => ∀ v, task ∉ (board s.toLinks).tasks v
  | _ => True

instance (s : Scheduler σ τ n) (event : RrEvent τ) : Decidable (RrBindingKept s event) := by
  unfold RrBindingKept
  cases event <;> exact inferInstance

variable {cfg : Config σ τ n} {s s' : Scheduler σ τ n} {b : Board τ (Fin n) Nat} {p : Nat}

theorem rotateQueue_spec (h : Sound cfg s.toLinks b) {v : Fin n} {vs : List (Fin n)}
    (hp : b.queue p = v :: vs) :
    ∃ t rest l, s.rotateQueue cfg p v = .ok { s with toLinks := l } ∧ t ∈ b.tasks v ∧
      Requeued b p v t rest ∧ Sound cfg l (b.pick p v t rest) ∧ (l.vcpus v).tr = some t := by
  have hv : v ∈ b.queue p := by simp [hp]
  have hfirst : b.queue p = [] ++ v :: vs := hp
  have htail : Threaded s.vnext (update s.vcpuQueue p (s.vnext v))
      (update b.queue p vs) := h.queue.unlink hfirst
  obtain ⟨t, nextSchedule, head, next', ht, hchosen, htasks, -⟩ :=
    vcpuInternalSchedule_spec h hv (s.accounts v).virtualTsc (cfg.quantum v)
  have hhead := updated_head_isNone htasks
  simp only [Scheduler.rotateQueue, queueRemoveHead, hchosen, ok_bind, Links.setVcpu,
    Links.setCurrent, update_self]
  by_cases hlast : (b.tasks v).erase t = []
  · have hoff : Requeued b p v t vs := requeued_off h.consistent hfirst hlast
    simp only [if_pos (hhead.mpr hlast), ok_bind]
    refine ⟨t, vs, _, rfl, ht, hoff, ?_, by simp⟩
    exact h.pick hv hoff htasks htail (fun u hu => by simp [hu]) (by simp) rfl rfl
  · have hhome : ∀ q, v ∈ update b.queue p vs q → q = p := by
      intro q hq
      by_cases hqp : q = p
      · exact hqp
      · rw [update_of_ne hqp] at hq
        exact ((h.consistent.queued q v).mp hq).1.symm.trans ((h.consistent.queued p v).mp hv).1
    obtain ⟨queue, vnext, happ, hqueue, -⟩ := queueAppend_spec htail p v hhome
    rw [← vcpuQueueAppend_eq (htail.chain p)] at happ
    simp only [update_self, update_idem] at happ hqueue
    have hon : Requeued b p v t (appendAbsent vs v) := by
      constructor
      · have hnodup := (hqueue.chain p).nodup
        rwa [update_self] at hnodup
      · intro u
        rw [mem_appendAbsent, hp, List.mem_cons, or_comm]
        simp [hlast]
    simp only [if_neg (fun hnone => hlast (hhead.mp hnone)), happ, ok_bind]
    refine ⟨t, appendAbsent vs v, _, rfl, ht, hon, ?_, by simp⟩
    exact h.pick hv hon htasks hqueue (fun u hu => by simp [hu]) (by simp) rfl rfl

/-- `vcpu_rr_schedule` returns and is a rule.  It goes idle when the queue is empty
and only then. -/
theorem vcpuRrSchedule_spec (h : Sound cfg s.toLinks b) (p acntEnd acntBegin : Nat) :
    ∃ selected b' s', s.vcpuRrSchedule cfg p acntEnd acntBegin = .ok s' ∧
      Schedule b p selected b' ∧ Sound cfg s'.toLinks b' ∧
      (selected = none ↔ b.queue p = []) ∧ (∀ t, selected = some t → s'.str p = some t) := by
  unfold Scheduler.vcpuRrSchedule
  generalize hs0 : ((s.vcpuCurrent p).elim s fun cur => s.acntEndTimeslice cur acntEnd) = s0
  have hlinks : s0.toLinks = s.toLinks := by
    rw [← hs0]
    cases s.vcpuCurrent p with
    | none => rfl
    | some cur => exact (acntEndTimeslice_unmoved s cur acntEnd).links
  rw [← hlinks] at h
  have hhead := (h.queue.chain p).head_eq
  cases hp : b.queue p with
  | nil =>
    rw [hp, List.head?_nil] at hhead
    simp only [hhead, ok_bind, Option.elim_none, Option.bind_none]
    refine ⟨none, b.idle p, _, rfl, .idle, h.idle p, by simp, ?_⟩
    exact fun t ht => absurd ht (Option.some_ne_none t).symm
  | cons v vs =>
    rw [hp, List.head?_cons] at hhead
    obtain ⟨t, rest, l, hrotate, ht, hrest, hsound, htr⟩ := rotateQueue_spec h hp
    have hv : v ∈ b.queue p := by simp [hp]
    simp only [hhead, hrotate, ok_bind, Option.elim_some, Option.bind_some,
      Scheduler.acntBeginTimeslice, Scheduler.setAccount, htr, Scheduler.switchTo]
    refine ⟨some t, b.pick p v t rest, _, rfl, .pick hv ht hrest, hsound, by simp, ?_⟩
    intro x hx
    rw [← hx]
    exact update_self _ _ _

def RrInv (cfg : Config σ τ n) (s : Scheduler σ τ n) : Prop :=
  Sound cfg s.toLinks (board s.toLinks)

omit [DecidableEq τ] in
theorem rrInv_of_board (h : Sound cfg s.toLinks b) : RrInv cfg s := by
  unfold RrInv
  rw [h.board_eq]
  exact h

theorem rrInv_step {event : RrEvent τ} (h : RrInv cfg s) (hguard : RrBindingKept s event)
    (hstep : rrStep cfg s event = .ok s') : RrInv cfg s' := by
  cases event with
  | wakeup task unblock =>
    obtain ⟨⟨v, s1⟩, hready, hok⟩ := bind_eq_ok.mp hstep
    cases hok
    exact rrInv_of_board (makeRunnable_refines h hready).1.sound
  | schedule p acntEnd acntBegin =>
    obtain ⟨selected, b', s1, hok, -, hsound, -, -⟩ := vcpuRrSchedule_spec h p acntEnd acntBegin
    cases hstep.symm.trans hok
    exact rrInv_of_board hsound
  | bind task cpu =>
    cases hstep
    exact rrInv_of_board (h.rebind hguard)

def queuedTasks (cfg : Config σ τ n) (s : Scheduler σ τ n) (p : Nat) : List τ :=
  ((List.finRange n).filter fun v => cfg.cpu v = p).flatMap (board s.toLinks).tasks

omit [DecidableEq τ] in
theorem queuedTasks_perm (h : RrInv cfg s) (p : Nat) :
    (queuedTasks cfg s p).Perm ((board s.toLinks).waiting p) := by
  have hboard := h.consistent
  have hnodup : (queuedTasks cfg s p).Nodup := by
    unfold queuedTasks
    rw [List.nodup_flatMap]
    refine ⟨fun v _ => hboard.distinct v, ((List.nodup_finRange n).filter _).imp ?_⟩
    intro u v huv t hu hv
    exact huv (hboard.once u v t hu hv)
  rw [List.perm_ext_iff_of_nodup hnodup (waiting_nodup hboard)]
  intro t
  rw [mem_waiting hboard]
  simp [queuedTasks]

/-- Calls of `vcpu_rr_schedule` on the PCPU `p`, with no wakeup between them: the
tasks that run after each, and the last state. -/
def rrCalls (cfg : Config σ τ n) (p : Nat) :
    List (Nat × Nat) → Scheduler σ τ n → Except Fault (List (Option τ) × Scheduler σ τ n)
  | [], s => .ok ([], s)
  | tsc :: tscs, s => do
      let s ← s.vcpuRrSchedule cfg p tsc.1 tsc.2
      let rest ← rrCalls cfg p tscs s
      .ok (s.str p :: rest.1, rest.2)

theorem rrCalls_drain (tscs : List (Nat × Nat)) (h : Sound cfg s.toLinks b)
    (hlen : tscs.length = (b.waiting p).length) :
    ∃ (selected : List τ) (s' : Scheduler σ τ n) (b' : Board τ (Fin n) Nat),
      rrCalls cfg p tscs s = .ok (selected.map some, s') ∧ Sound cfg s'.toLinks b' ∧
      b'.queue p = [] ∧ selected.Perm (b.waiting p) := by
  induction tscs generalizing s b with
  | nil =>
    have hempty : b.waiting p = [] := List.eq_nil_of_length_eq_zero hlen.symm
    refine ⟨[], s, b, rfl, h, (waiting_eq_nil h.consistent).mp hempty, ?_⟩
    rw [hempty]
  | cons tsc tscs ih =>
    obtain ⟨selected, b1, s1, hcall, hrule, hsound, hidle, hstr⟩ :=
      vcpuRrSchedule_spec h p tsc.1 tsc.2
    cases hrule with
    | idle =>
      have hempty := (waiting_eq_nil h.consistent).mpr (hidle.mp rfl)
      rw [hempty] at hlen
      simp at hlen
    | @pick v t rest hv ht hrest =>
      have hperm := waiting_pick h.consistent hv ht hrest
      have hlen1 : tscs.length = ((b.pick p v t rest).waiting p).length := by
        have hcount := hperm.length_eq
        simp only [List.length_cons] at hcount hlen
        omega
      obtain ⟨selected, s', b', hcalls, hsound', hqueue, hsel⟩ := ih hsound hlen1
      refine ⟨t :: selected, s', b', ?_, hsound', hqueue, ?_⟩
      · rw [rrCalls, hcall, ok_bind, hcalls, ok_bind, hstr t rfl]
        rfl
      · exact (hsel.cons t).trans hperm.symm

/-- One call for each queued task and one more lead to the state with nothing queued, and the
calls before the last select each queued task once. -/
theorem rr_exhaustion {start : Scheduler σ τ n} (hstart : Initial start)
    (hreach : Reaches (rrStep cfg) RrBindingKept start s) (p : Nat) (tscs : List (Nat × Nat))
    (hlength : tscs.length = (queuedTasks cfg s p).length) (acntEnd acntBegin : Nat) :
    ∃ (selected : List τ) (s₁ s2 : Scheduler σ τ n),
      rrCalls cfg p tscs s = .ok (selected.map some, s₁) ∧
      selected.Perm (queuedTasks cfg s p) ∧ selected.Nodup ∧
      s₁.vcpuRrSchedule cfg p acntEnd acntBegin = .ok s2 ∧
      s2.vcpuQueue p = none ∧ (∀ v, cfg.cpu v = p → s2.runqueue v = none) ∧
      s2.vcpuCurrent p = none := by
  have hinv : RrInv cfg s :=
    hreach.invariant (RrInv cfg) (inv_initial hstart).1 fun _ _ _ h => rrInv_step h
  have hperm := queuedTasks_perm hinv p
  obtain ⟨selected, s₁, b₁, hcalls, hsound, hqueue, hselected⟩ :=
    rrCalls_drain tscs hinv (hlength.trans hperm.length_eq)
  obtain ⟨last, b2, s2, hcall, hrule, hsound2, hidle, -⟩ :=
    vcpuRrSchedule_spec hsound p acntEnd acntBegin
  cases hrule with
  | pick => exact absurd (hidle.mpr hqueue) (Option.some_ne_none _)
  | idle =>
    have hnone : s2.vcpuQueue p = none := by
      have hchain := hsound2.queue.chain p
      rwa [show (b₁.idle p).queue p = [] from hqueue, chain_nil] at hchain
    refine ⟨selected, s₁, s2, hcalls, hselected.trans hperm.symm,
      hselected.nodup_iff.mpr (waiting_nodup hinv.consistent), hcall, hnone, ?_, ?_⟩
    · intro v hv
      have htasks : (b₁.idle p).tasks v = [] := by
        by_contra hne
        have hmem := (hsound2.consistent.queued p v).mpr ⟨hv, hne⟩
        exact List.not_mem_nil (hqueue ▸ hmem)
      have hchain := hsound2.tasks.chain v
      rwa [htasks, chain_nil] at hchain
    · rw [hsound2.current]
      exact Function.update_self _ _ _

/-- Three tasks on two VCPUs take three calls, and the fourth goes idle. -/
theorem rr_exhaustion_three_tasks :
    ∃ start s, Initial start ∧ Reaches (rrStep twoMain) RrBindingKept start s ∧
      queuedTasks twoMain s 0 = [1, 0, 2] ∧
      ∃ (selected : List (Fin 4)) (s₁ s2 : Scheduler _ _ _),
        rrCalls twoMain 0 [(3, 3), (4, 4), (5, 5)] s = .ok (selected.map some, s₁) ∧
        selected.Perm [1, 0, 2] ∧ s₁.vcpuRrSchedule twoMain 0 6 6 = .ok s2 ∧
        s2.vcpuQueue 0 = none ∧ s2.vcpuCurrent 0 = none := by
  have hrun : (twoMainBoot.bind fun start => replay (rrStep twoMain) RrBindingKept start
      [.wakeup 0 (.at 2), .wakeup 1 (.at 2), .wakeup 2 (.at 2)]).map (queuedTasks twoMain · 0) =
        some [1, 0, 2] := by
    decide
  obtain ⟨s, hs, hqueued⟩ := Option.map_eq_some_iff.mp hrun
  obtain ⟨start, hboot, hevents⟩ := Option.bind_eq_some_iff.mp hs
  have hstart := twoMainBoot_initial hboot
  have hreach := Reaches.refl.replay hevents
  obtain ⟨selected, s₁, s2, hcalls, hperm, -, hlast, hqueue, -, hcurrent⟩ :=
    rr_exhaustion hstart hreach 0 [(3, 3), (4, 4), (5, 5)] (by rw [hqueued]; rfl) 6 6
  exact ⟨start, s, hstart, hreach, hqueued, selected, s₁, s2, hcalls, hqueued ▸ hperm, hlast,
    hqueue, hcurrent⟩

end Quest.Sched.RoundRobin
