import Quest.Sched.Projection

/-! The calls of the scheduler return. -/
namespace Quest.Sched.Progress

open Lib.LinkedList Lib.Reach Hooks Sched.Core Budgets Rules Refinement Projection Function
open RunInvariants (Inv Initial inv_initial)

variable {σ τ : Type} {n : Nat}

structure Responsive (hooks : VcpuHooks σ) (good : σ → Prop) : Prop where
  update : ∀ s, good s → ∀ tcur tsc, ∃ s', hooks.updateReplenishments s tcur tsc = .ok s' ∧ good s'
  nextEvent : ∀ s, good s → ∀ tsc, ∃ event, hooks.nextEvent s tsc = .ok event
  endTimeslice : ∀ s, good s → ∀ runnable tdelta tsc, ∃ s',
    hooks.endTimeslice s runnable tdelta tsc = .ok s' ∧ good s'
  unblock : ∀ s, good s → ∀ tsc : Tsc, tsc.first ≤ tsc.second →
    ∃ s', hooks.unblock s tsc = .ok s' ∧ good s'

structure Lasting (cfg : Config σ τ n) (good : Fin n → σ → Prop) : Prop where
  hooks : ∀ v, Responsive (cfg.hooks v) (good v)
  period : ∀ v s T, cfg.type v = .io → good v s → good v (cfg.setPeriod s T)

def assigned : Event τ n → Option Nat
  | .jobWakeup _ _ T _ => some T
  | .request _ T => some T
  | _ => none

def Assignable (cfg : Config σ τ n) (good : Fin n → σ → Prop) (T : Nat) : Prop :=
  ∀ v s, cfg.type v = .io → good v s → good v (cfg.setPeriod s T)

variable {cfg : Config σ τ n} {s s' : Scheduler σ τ n}
  {b : Board τ (Fin n) Nat} {good : Fin n → σ → Prop} {p : Nat} {task : τ} {tsc : ScheduleTsc n}

theorem assign_good {T : Nat} (hT : Assignable cfg good T)
    (hgood : ∀ v, good v (s.servers v)) {u : Fin n} (hu : cfg.type u = .io) (v : Fin n) :
    good v ((s.setServer u (cfg.setPeriod (s.servers u) T)).servers v) := by
  dsimp only [Scheduler.setServer]
  by_cases hv : v = u
  · subst hv
    rw [update_self]
    exact hT v _ hu (hgood v)
  · rw [update_of_ne hv]
    exact hgood v

theorem assignVcpu_returns {type : Fin n → VcpuType} {m : Fin n} (hm : type m = .main)
    {fuel distance cpu : Nat} (hcpu : cpu < n) (hfuel : distance < fuel)
    (hdistance : cpu + distance = m ∨ cpu + distance = m + n) :
    ∃ (v : Fin n) (following : Nat), assignVcpu type fuel cpu = .ok (v.val, following) := by
  induction fuel generalizing distance cpu with
  | zero => exact absurd hfuel (Nat.not_lt_zero distance)
  | succ fuel ih =>
    have hlookup : vcpuLookup n cpu = some ⟨cpu, hcpu⟩ := vcpuLookup_eq_some.mpr rfl
    rw [assignVcpu, hlookup, deref_some, ok_bind]
    split
    · exact ⟨⟨cpu, hcpu⟩, _, rfl⟩
    · rename_i hother
      have hne : cpu ≠ m := by
        rintro rfl
        exact hother hm
      obtain ⟨closer, rfl⟩ : ∃ closer, distance = closer + 1 := ⟨distance - 1, by omega⟩
      have hcloser : closer < fuel := by omega
      refine ih ?_ hcloser ?_
      · split <;> omega
      · split <;> omega

def Bindable (cfg : Config σ τ n) (s : Scheduler σ τ n) (task : τ) : Prop :=
  (∃ v : Fin n, s.binding task = v) ∨
    s.binding task = 0xFF ∧ s.nextVcpuBinding < n ∧ ∃ v, cfg.type v = .main

theorem bindTask_returns [DecidableEq τ] (hbound : Bindable cfg s task) :
    ∃ (v : Fin n) (l : Links τ n), s.toLinks.bindTask cfg.type task = .ok l ∧
      l.binding task = v := by
  have hfits := cfg.unbound_free
  unfold Links.bindTask
  rcases hbound with ⟨v, hv⟩ | ⟨hunbound, hnext, m, hm⟩
  · rw [if_neg (by omega)]
    exact ⟨v, _, rfl, hv⟩
  · have hdistance : s.nextVcpuBinding + (if s.nextVcpuBinding ≤ m then m - s.nextVcpuBinding else
        m + n - s.nextVcpuBinding) = m ∨ s.nextVcpuBinding + (if s.nextVcpuBinding ≤ m then
        m - s.nextVcpuBinding else m + n - s.nextVcpuBinding) = m + n := by
      split <;> omega
    have hround : (if s.nextVcpuBinding ≤ m then m - s.nextVcpuBinding else
        m + n - s.nextVcpuBinding) < n + 1 := by
      split <;> omega
    obtain ⟨v, following, hassign⟩ := assignVcpu_returns hm hnext hround hdistance
    rw [if_pos hunbound, hassign, ok_bind]
    exact ⟨v, _, rfl, update_self _ _ _⟩

section Returns

variable (hhooks : ∀ v, Responsive (cfg.hooks v) (good v))

include hhooks

theorem refreshed_good {servers servers' : Fin n → σ} (hgood : ∀ v, good v (servers v)) {queue : List (Fin n)}
    {chosen : Option (Fin n)} (hfresh : Refreshed cfg tsc servers servers' queue chosen)
    (v : Fin n) : good v (servers' v) := by
  rcases hfresh.queued v with hsame | hupdate
  · rw [hsame]
    exact hgood v
  · obtain ⟨server, hserver, hnext⟩ := (hhooks v).update _ (hgood v) tsc.tcur (tsc.update v)
    rw [hupdate] at hserver
    exact Except.ok.inj hserver ▸ hnext

theorem consider_returns (ptr : Option (Fin n)) (v : Fin n)
    {best : Selection σ n} (hgood : ∀ v, good v (best.servers v)) :
    ∃ best', Scheduler.consider cfg tsc ptr v best = .ok best' ∧
      ∀ v, good v (best'.servers v) := by
  obtain ⟨server, hserver, hnext⟩ := (hhooks v).update _ (hgood v) tsc.tcur (tsc.update v)
  have hupdated : ∀ u, good u (update best.servers v server u) := by
    intro u
    by_cases hu : u = v
    · subst hu
      rw [update_self]
      exact hnext
    · rw [update_of_ne hu]
      exact hgood u
  unfold Scheduler.consider
  simp only [hserver, ok_bind]
  split
  · split
    · exact ⟨_, rfl, hupdated⟩
    · exact ⟨_, rfl, hupdated⟩
  · exact ⟨best, rfl, hgood⟩

section

variable (hgood : ∀ v, good v (s.servers v))

include hgood

theorem charged_good {servers : Fin n → σ}
    (hcharge : Charged cfg s p tsc servers) (v : Fin n) : good v (servers v) := by
  by_cases hcur : s.vcpuCurrent p = some v
  · obtain ⟨server, hserver, hnext⟩ := (hhooks v).endTimeslice _ (hgood v) (s.vcpus v).runnable
      (u64 (tsc.tcur - s.pcpuTprev p)) tsc.endTimeslice
    rw [hcharge.current v hcur] at hserver
    exact Except.ok.inj hserver ▸ hnext
  · rw [hcharge.other v hcur]
    exact hgood v

theorem endTimeslice_returns (p : Nat) (tsc : ScheduleTsc n) :
    ∃ s', s.endTimeslice cfg p tsc = .ok s' := by
  unfold Scheduler.endTimeslice
  cases hcur : s.vcpuCurrent p with
  | none => exact ⟨s, rfl⟩
  | some cur =>
    obtain ⟨server, hserver, -⟩ := (hhooks cur).endTimeslice _ (hgood cur) (s.vcpus cur).runnable
      (u64 (tsc.tcur - s.pcpuTprev p)) tsc.endTimeslice
    simp only [acntEndTimeslice_servers, (acntEndTimeslice_unmoved s cur tsc.acntEnd).links,
      hserver, ok_bind]
    exact ⟨_, rfl⟩

theorem selectVcpu_returns (tsc : ScheduleTsc n) {queue : Option (Fin n)}
    {nodes : List (Fin n)} (hqueue : Chain s.vnext queue nodes) :
    ∃ best, s.selectVcpu cfg queue tsc = .ok best := by
  unfold Scheduler.selectVcpu
  rw [forLinks_eq Fault.diverges _ _ hqueue (Nat.lt_succ_of_le hqueue.length_le_fin)]
  have hstart : ∀ v, good v ((⟨s.servers, 0, none⟩ : Selection σ n).servers v) := hgood
  obtain ⟨best, hbest, -⟩ := foldlM_returns
    (fun best : Selection σ n => ∀ v, good v (best.servers v)) hstart
    (fun best x (_ : x ∈ links none nodes) hbest => consider_returns hhooks x.1 x.2 hbest)
  exact ⟨best, hbest⟩

theorem eventDelta_returns (tsc : ScheduleTsc n) (Tnext : Nat) (vcpu : Option (Fin n))
    {queue : Option (Fin n)} {nodes : List (Fin n)} (hqueue : Chain s.vnext queue nodes) :
    ∃ tdelta, s.eventDelta cfg tsc Tnext vcpu queue = .ok tdelta := by
  have hbody : ∀ tdelta (x : Option (Fin n) × Fin n), x ∈ links none nodes → True →
      ∃ tdelta', s.sooner cfg tsc Tnext x.2 tdelta = .ok tdelta' ∧ True := by
    intro tdelta x _ _
    obtain ⟨event, hevent⟩ := (hhooks x.2).nextEvent _ (hgood x.2) (tsc.nextEvent x.2)
    unfold Scheduler.sooner
    simp only [hevent, ok_bind]
    split
    · split <;> exact ⟨_, rfl, trivial⟩
    · exact ⟨_, rfl, trivial⟩
  unfold Scheduler.eventDelta
  rw [forLinks_eq Fault.diverges _ _ hqueue (Nat.lt_succ_of_le hqueue.length_le_fin)]
  obtain ⟨tdelta, htdelta, -⟩ := foldlM_returns (fun _ : Nat => True) trivial hbody
  exact ⟨tdelta, htdelta⟩

theorem renewed_good {tsc : WakeupTsc} {v : Fin n}
    (hread : tsc.unblock.first ≤ tsc.unblock.second)
    (hrenew : Renewed cfg s s' v tsc) (u : Fin n) : good u (s'.servers u) := by
  by_cases hu : u = v
  · subst hu
    obtain ⟨server, hserver, hupdate⟩ := hrenew.woken
    have hunblocked : good u server := by
      split at hserver
      · obtain ⟨unblocked, hunblock, hnext⟩ := (hhooks u).unblock _ (hgood u) tsc.unblock hread
        rw [hunblock] at hserver
        exact Except.ok.inj hserver ▸ hnext
      · exact Except.ok.inj hserver ▸ hgood u
    obtain ⟨updated, hupdated, hnext⟩ := (hhooks u).update _ hunblocked tsc.now tsc.update
    rw [hupdate] at hupdated
    exact Except.ok.inj hupdated ▸ hnext
  · rw [hrenew.other u hu]
    exact hgood u

variable [DecidableEq τ] [Fintype τ]

theorem scheduleQueue_returns (p : Nat) (tsc : ScheduleTsc n) (h : Sound cfg s.toLinks b) :
    ∃ x, s.scheduleQueue cfg p tsc = .ok x := by
  obtain ⟨best, hbest⟩ := selectVcpu_returns hhooks hgood tsc (h.queue.chain p)
  obtain ⟨chosen, hpoints, hfresh⟩ := selectVcpu_spec (h.queue.chain p) hbest
  have hbudgets := refreshed_good hhooks hgood hfresh
  -- The queue that is left is one of the queues of a sound board.
  obtain ⟨vcpu, queue, l, nodes, hdisp, hchain⟩ : ∃ vcpu queue l nodes,
      s.toLinks.dispatch cfg.quantum s.accounts p (s.vcpuQueue p) best.vnext =
        .ok (vcpu, queue, l) ∧ Chain l.vnext queue nodes := by
    rcases hpoints with ⟨hnone, -⟩ | ⟨xs, v, ys, hp, hvnext, -⟩
    · rw [hnone]
      exact ⟨none, s.vcpuQueue p, _, b.queue p, rfl, h.queue.chain p⟩
    · obtain ⟨t, rest, runnable, nextSchedule, queue, l, hdisp, -, -, -, hsound, hqueue, -⟩ :=
        dispatch_spec h s.accounts hp
      rw [hvnext]
      exact ⟨some v, queue, l, _, hdisp, hqueue ▸ hsound.queue.chain p⟩
  obtain ⟨tdelta, htdelta⟩ := eventDelta_returns (s := { s with
    toLinks := l, servers := best.servers }) hhooks hbudgets tsc best.Tnext vcpu hchain
  unfold Scheduler.scheduleQueue
  rw [hbest, ok_bind, hdisp, ok_bind]
  dsimp only
  rw [htdelta, ok_bind]
  exact ⟨_, rfl⟩

theorem vcpuSchedule_returns (p : Nat) (tsc : ScheduleTsc n) (h : Sound cfg s.toLinks b) :
    ∃ s', s.vcpuSchedule cfg p tsc = .ok s' := by
  obtain ⟨s0, hslice⟩ := endTimeslice_returns hhooks hgood p tsc
  have hlinks := (endTimeslice_unmoved hslice).links
  have hcharge := charged_good hhooks hgood (endTimeslice_charged hslice)
  obtain ⟨⟨vcpu, s1⟩, hqueue⟩ := scheduleQueue_returns hhooks hcharge p tsc (hlinks ▸ h)
  unfold Scheduler.vcpuSchedule
  rw [hslice, ok_bind, hqueue]
  split <;> exact ⟨_, rfl⟩

theorem vcpuWakeup_returns (p : Nat) (tsc : WakeupTsc)
    (hread : tsc.unblock.first ≤ tsc.unblock.second)
    (h : Sound cfg s.toLinks b) (hbindable : Bindable cfg s task) :
    ∃ s', s.vcpuWakeup cfg p task tsc = .ok s' := by
  obtain ⟨v, l, hbind, hbound⟩ := bindTask_returns hbindable
  obtain ⟨l1, l2, hrunqueue, hqueue, -⟩ := append_sound (bindTask_sound h hbind).1 hbound
  have henq : s.toLinks.enqueue cfg task = .ok (v, l2) := by
    unfold Links.enqueue
    rw [hbind, ok_bind, vcpuLookup_eq_some.mpr hbound, deref_some, ok_bind, hrunqueue, ok_bind,
      hqueue, ok_bind]
  obtain ⟨unblocked, hunblock, hgood1⟩ := (hhooks v).unblock _ (hgood v) tsc.unblock hread
  have hserver : ∃ server, (if !(l2.vcpus v).runnable && !(l2.vcpus v).running then
      (cfg.hooks v).unblock (s.servers v) tsc.unblock else .ok (s.servers v)) = .ok server ∧
        good v server := by
    split
    · exact ⟨unblocked, hunblock, hgood1⟩
    · exact ⟨s.servers v, rfl, hgood v⟩
  obtain ⟨server, hserver, hgood2⟩ := hserver
  obtain ⟨updated, hupdate, -⟩ := (hhooks v).update _ hgood2 tsc.now tsc.update
  unfold Scheduler.vcpuWakeup Scheduler.makeRunnable
  rw [henq, ok_bind]
  dsimp only
  rw [hserver, ok_bind, ok_bind]
  dsimp only [Scheduler.setServer]
  rw [update_self, hupdate, ok_bind]
  exact ⟨_, rfl⟩

end

variable [DecidableEq τ] [Fintype τ]

theorem good_next {c c' : Clocked σ τ n} {event : Event τ n}
    (hassign : ∀ T ∈ assigned event, Assignable cfg good T)
    (hinv : Inv cfg c.sched) (hgood : ∀ v, good v (c.sched.servers v))
    (hfwd : Forward cfg c event) (hstep : step cfg c event = .ok c') (v : Fin n) :
    good v (c'.sched.servers v) := by
  cases event with
  | wakeup p task tsc =>
    obtain ⟨s', hwake, heq⟩ := bind_eq_ok.mp hstep
    cases heq
    obtain ⟨u, -, hrenew⟩ := vcpuWakeup_refines hinv.1 hwake
    exact renewed_good hhooks hgood hfwd.2.1 hrenew v
  | jobWakeup p job T tsc =>
    obtain ⟨s', hjob, heq⟩ := bind_eq_ok.mp hstep
    cases heq
    obtain ⟨u, -, hwake⟩ := bind_eq_ok.mp hjob
    dsimp only at hwake
    split at hwake
    · rename_i hperiod
      obtain ⟨x, -, hrenew⟩ := vcpuWakeup_refines (s := c.sched.setServer u _) hinv.1 hwake
      exact renewed_good hhooks (assign_good (hassign T rfl) hgood hperiod.1) hfwd.2.1 hrenew v
    · obtain ⟨x, -, hrenew⟩ := vcpuWakeup_refines hinv.1 hwake
      exact renewed_good hhooks hgood hfwd.2.1 hrenew v
  | schedule p tsc =>
    obtain ⟨s', hschedule, heq⟩ := bind_eq_ok.mp hstep
    cases heq
    obtain ⟨b, selected, hsched⟩ := vcpuSchedule_refines hinv.1 hschedule
    obtain ⟨servers, hcharge, hfresh⟩ := hsched.budgets
    exact refreshed_good hhooks (charged_good hhooks hgood hcharge) hfresh v
  | bind task cpu =>
    cases hstep
    exact hgood v
  | request u T =>
    cases hstep
    exact assign_good (hassign T rfl) hgood hfwd v

theorem reached_good {guard : Clocked σ τ n → Event τ n → Prop} {start c : Clocked σ τ n}
    (hguard : ∀ c event, guard c event →
      Forward cfg c event ∧ ∀ T ∈ assigned event, Assignable cfg good T)
    (hstart : Initial start.sched) (hgood : ∀ v, good v (start.sched.servers v))
    (hreach : Reaches (step cfg) guard start c) :
    Inv cfg c.sched ∧ ∀ v, good v (c.sched.servers v) := by
  apply hreach.invariant (fun c => Inv cfg c.sched ∧ ∀ v, good v (c.sched.servers v))
    ⟨inv_initial hstart, hgood⟩
  rintro c c' event ⟨hinv, hgood⟩ hevent hstep
  obtain ⟨hfwd, hassign⟩ := hguard c event hevent
  exact ⟨inv_next hinv hfwd hstep, good_next hhooks hassign hinv hgood hfwd hstep⟩

end Returns

end Quest.Sched.Progress
