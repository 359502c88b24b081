import Quest.Sched.Core

/-! What the calls of the scheduler do to the budgets of the VCPUs, and the parts of
the calls that do nothing else. -/
namespace Quest.Sched.Budgets

open Lib.LinkedList Hooks Sched.Core Function Scheduler

variable {σ τ : Type} {n : Nat}

section Frame

variable {cfg : Config σ τ n} {s s' : Scheduler σ τ n} {p : Nat} {tsc : ScheduleTsc n}

structure Unmoved (s s' : Scheduler σ τ n) : Prop where
  links : s'.toLinks = s.toLinks
  str : s'.str = s.str
  idle : s'.vcpuIdleTask = s.vcpuIdleTask
  tprev : s'.pcpuTprev = s.pcpuTprev

theorem acntEndTimeslice_unmoved (s : Scheduler σ τ n) (v : Fin n) (now : Nat) :
    Unmoved s (s.acntEndTimeslice v now) := by
  unfold acntEndTimeslice
  dsimp only
  split <;> exact ⟨rfl, rfl, rfl, rfl⟩

theorem endTimeslice_unmoved (h : s.endTimeslice cfg p tsc = .ok s') : Unmoved s s' := by
  unfold endTimeslice at h
  split at h
  · cases h
    exact ⟨rfl, rfl, rfl, rfl⟩
  · rename_i cur _
    obtain ⟨server, -, hs'⟩ := bind_eq_ok.mp h
    cases hs'
    obtain ⟨hlinks, hstr, hidle, htprev⟩ := acntEndTimeslice_unmoved s cur tsc.acntEnd
    exact ⟨hlinks, hstr, hidle, htprev⟩

theorem setTimer_unmoved (cfg : Config σ τ n) (s : Scheduler σ τ n) (p : Nat)
    (vcpu : Option (Fin n)) (tdelta : Nat) :
    Unmoved s (s.setTimer cfg p vcpu tdelta) := by
  unfold setTimer
  split
  · cases vcpu <;> exact ⟨rfl, rfl, rfl, rfl⟩
  · exact ⟨rfl, rfl, rfl, rfl⟩

theorem preempt_unmoved (cfg : Config σ τ n) (s : Scheduler σ τ n) (p : Nat) (v : Fin n) :
    Unmoved s (s.preempt cfg p v) := by
  unfold preempt
  split <;> exact ⟨rfl, rfl, rfl, rfl⟩

@[simp] theorem acntEndTimeslice_servers (s : Scheduler σ τ n) (v : Fin n) (now : Nat) :
    (s.acntEndTimeslice v now).servers = s.servers := by
  unfold acntEndTimeslice
  dsimp only
  split <;> rfl

variable (cfg : Config σ τ n)

variable (s : Scheduler σ τ n)

@[simp] theorem setTimer_servers (p : Nat)
    (vcpu : Option (Fin n)) (tdelta : Nat) :
    (s.setTimer cfg p vcpu tdelta).servers = s.servers := by
  unfold setTimer
  split
  · cases vcpu <;> rfl
  · rfl

@[simp] theorem preempt_servers (p : Nat) (v : Fin n) :
    (s.preempt cfg p v).servers = s.servers := by
  unfold preempt
  split <;> rfl

theorem switchTo_frame (p : Nat) (next : Option τ)
    (vcpu : Option (Fin n)) (now : Nat) :
    ((vcpu.elim s fun v => s.acntBeginTimeslice v now).switchTo cfg p next).servers = s.servers ∧
      ((vcpu.elim s fun v => s.acntBeginTimeslice v now).switchTo cfg p next).pcpuTprev =
        s.pcpuTprev := by
  cases vcpu <;> cases next <;> exact ⟨rfl, rfl⟩

theorem switchTo_idleTask (p : Nat) (next : Option τ)
    {q : Nat} {t : τ} (h : (s.switchTo cfg p next).vcpuIdleTask q = some t) :
    s.vcpuIdleTask q = some t ∨ t = cfg.idleTss q := by
  cases next with
  | some x => exact .inl h
  | none =>
    by_cases hq : q = p
    · subst hq
      simp only [switchTo, update_self, Option.some.injEq] at h
      cases hidle : s.vcpuIdleTask q with
      | none => exact .inr (by rw [← h, hidle, Option.getD_none])
      | some idle => exact .inl (by rw [← h, hidle, Option.getD_some])
    · simp only [switchTo, update_of_ne hq] at h
      exact .inl h

end Frame

section Budgets

variable {cfg : Config σ τ n} {s s' : Scheduler σ τ n} {p : Nat} {tsc : ScheduleTsc n}

structure Renewed (cfg : Config σ τ n) (s s' : Scheduler σ τ n) (v : Fin n) (tsc : WakeupTsc) :
    Prop where
  woken : ∃ server, (if !(s.vcpus v).runnable && !(s.vcpus v).running then
      (cfg.hooks v).unblock (s.servers v) tsc.unblock else .ok (s.servers v)) = .ok server ∧
    (cfg.hooks v).updateReplenishments server tsc.now tsc.update = .ok (s'.servers v)
  other : ∀ u, u ≠ v → s'.servers u = s.servers u

theorem iovcpuJobWakeup_cases [DecidableEq τ] [Fintype τ] {job : τ} {T : Nat} {tsc : WakeupTsc}
    (h : s.iovcpuJobWakeup cfg p job T tsc = .ok s') :
    ∃ servers, ({ s with servers := servers } : Scheduler σ τ n).vcpuWakeup cfg p job tsc =
      .ok s' := by
  obtain ⟨v, -, hwake⟩ := bind_eq_ok.mp h
  dsimp only at hwake
  split at hwake
  · exact ⟨_, hwake⟩
  · exact ⟨s.servers, hwake⟩

structure Charged (cfg : Config σ τ n) (s : Scheduler σ τ n) (p : Nat) (tsc : ScheduleTsc n)
    (servers : Fin n → σ) : Prop where
  current : ∀ v, s.vcpuCurrent p = some v →
    (cfg.hooks v).endTimeslice (s.servers v) (s.vcpus v).runnable
      (u64 (tsc.tcur - s.pcpuTprev p)) tsc.endTimeslice = .ok (servers v)
  other : ∀ v, s.vcpuCurrent p ≠ some v → servers v = s.servers v

theorem endTimeslice_charged (h : s.endTimeslice cfg p tsc = .ok s') :
    Charged cfg s p tsc s'.servers := by
  unfold endTimeslice at h
  split at h
  · rename_i hnone
    cases h
    exact ⟨fun v hv => absurd (hnone.symm.trans hv) (Option.some_ne_none v).symm, fun _ _ => rfl⟩
  · rename_i cur hcur
    obtain ⟨server, hserver, hs'⟩ := bind_eq_ok.mp h
    cases hs'
    rw [acntEndTimeslice_servers, (acntEndTimeslice_unmoved s cur tsc.acntEnd).links] at hserver
    simp only [setServer, acntEndTimeslice_servers]
    constructor
    · intro v hv
      cases hcur.symm.trans hv
      rw [update_self]
      exact hserver
    · intro v hv
      have hne : v ≠ cur := by
        rintro rfl
        exact hv hcur
      rw [update_of_ne hne]

structure Refreshed (cfg : Config σ τ n) (tsc : ScheduleTsc n) (servers servers' : Fin n → σ)
    (queue : List (Fin n)) (chosen : Option (Fin n)) : Prop where
  other : ∀ v, v ∉ queue → servers' v = servers v
  queued : ∀ v, servers' v = servers v ∨
    (cfg.hooks v).updateReplenishments (servers v) tsc.tcur (tsc.update v) = .ok (servers' v)
  chosen : ∀ v, chosen = some v → 0 < (cfg.hooks v).budget (servers' v) ∧
    (cfg.hooks v).updateReplenishments (servers v) tsc.tcur (tsc.update v) = .ok (servers' v)

theorem refreshed_none (cfg : Config σ τ n) (tsc : ScheduleTsc n) (servers : Fin n → σ)
    (queue : List (Fin n)) : Refreshed cfg tsc servers servers queue none where
  other _ _ := rfl
  queued _ := .inl rfl
  chosen v hv := absurd hv (Option.some_ne_none v).symm

def Points (ptr : Option (Fin n)) (queue : List (Fin n)) (vnext : Option (Option (Fin n)))
    (chosen : Option (Fin n)) : Prop :=
  vnext = none ∧ chosen = none ∨
    ∃ xs v ys, queue = xs ++ v :: ys ∧ vnext = some (linkAfter ptr xs) ∧ chosen = some v

variable {ptr : Option (Fin n)} {best best' : Selection σ n}

theorem consider_spec {v : Fin n} (h : consider cfg tsc ptr v best = .ok best') :
    (∀ u, u ≠ v → best'.servers u = best.servers u) ∧
      (best'.vnext = best.vnext ∧ (best'.servers v = best.servers v ∨
        (cfg.hooks v).updateReplenishments (best.servers v) tsc.tcur (tsc.update v) =
          .ok (best'.servers v)) ∨
      best'.vnext = some ptr ∧ 0 < (cfg.hooks v).budget (best'.servers v) ∧
        (cfg.hooks v).updateReplenishments (best.servers v) tsc.tcur (tsc.update v) =
          .ok (best'.servers v)) := by
  unfold consider at h
  split at h
  · obtain ⟨server, hserver, hbest⟩ := bind_eq_ok.mp h
    dsimp only at hbest
    split at hbest
    · rename_i hbudget
      cases hbest
      refine ⟨fun u hu => update_of_ne hu _ _, .inr ⟨rfl, ?_, ?_⟩⟩
      · simpa using hbudget
      · simpa using hserver
    · cases hbest
      refine ⟨fun u hu => update_of_ne hu _ _, .inl ⟨rfl, .inr ?_⟩⟩
      simpa using hserver
  · cases h
    exact ⟨fun _ _ => rfl, .inl ⟨rfl, .inl rfl⟩⟩

variable {nodes : List (Fin n)}

theorem considerLoop_spec (hnodup : nodes.Nodup)
    (h : (links ptr nodes).foldlM (fun best x => consider cfg tsc x.1 x.2 best) best = .ok best')
    :
    ∃ chosen, Refreshed cfg tsc best.servers best'.servers nodes chosen ∧
      (best'.vnext = best.vnext ∧ chosen = none ∨ Points ptr nodes best'.vnext chosen) := by
  induction nodes generalizing ptr best with
  | nil =>
    cases h
    exact ⟨none, refreshed_none cfg tsc _ [], .inl ⟨rfl, rfl⟩⟩
  | cons v nodes ih =>
    rw [links, List.foldlM_cons] at h
    obtain ⟨best1, hconsider, hloop⟩ := bind_eq_ok.mp h
    obtain ⟨hfresh, hnodup⟩ := List.nodup_cons.mp hnodup
    obtain ⟨hother, hvcpu⟩ := consider_spec hconsider
    obtain ⟨chosen, hrest, hvnext⟩ := ih hnodup hloop
    have hkept : best'.servers v = best1.servers v := hrest.other v hfresh
    have hothers : ∀ u, u ∉ v :: nodes → best'.servers u = best.servers u := by
      intro u hu
      rw [List.mem_cons, not_or] at hu
      rw [hrest.other u hu.2, hother u hu.1]
    have hqueued : ∀ u, best'.servers u = best.servers u ∨
        (cfg.hooks u).updateReplenishments (best.servers u) tsc.tcur (tsc.update u) =
          .ok (best'.servers u) := by
      intro u
      by_cases hu : u = v
      · subst hu
        rw [hkept]
        rcases hvcpu with ⟨-, hvcpu⟩ | ⟨-, -, hvcpu⟩
        · exact hvcpu
        · exact .inr hvcpu
      · rw [← hother u hu]
        exact hrest.queued u
    -- A VCPU further on replaces the choice of this one.
    rcases hvnext with ⟨hsame, rfl⟩ | hpoints
    · rcases hvcpu with ⟨hvnext, -⟩ | ⟨hvnext, hbudget, hupdate⟩
      · refine ⟨none, ⟨hothers, hqueued, ?_⟩, .inl ⟨hsame.trans hvnext, rfl⟩⟩
        exact fun u hu => absurd hu (Option.some_ne_none u).symm
      · refine ⟨some v, ⟨hothers, hqueued, ?_⟩, .inr (.inr ⟨[], v, nodes, rfl, ?_, rfl⟩)⟩
        · intro u hu
          cases hu
          rw [hkept]
          exact ⟨hbudget, hupdate⟩
        · rw [hsame, hvnext, linkAfter_nil]
    · rcases hpoints with ⟨hnone, rfl⟩ | ⟨xs, u, ys, hnodes, hlink, rfl⟩
      · refine ⟨none, ⟨hothers, hqueued, ?_⟩, .inr (.inl ⟨hnone, rfl⟩)⟩
        exact fun u hu => absurd hu (Option.some_ne_none u).symm
      · refine ⟨some u, ⟨hothers, hqueued, ?_⟩, .inr (.inr ⟨v :: xs, u, ys, ?_, ?_, rfl⟩)⟩
        · intro x hx
          cases hx
          have hne : u ≠ v := by
            rintro rfl
            exact hfresh (by simp [hnodes])
          rw [← hother u hne]
          exact hrest.chosen u rfl
        · rw [hnodes, List.cons_append]
        · rw [hlink, linkAfter_cons]

theorem selectVcpu_spec {queue : Option (Fin n)} (hqueue : Chain s.vnext queue nodes)
    (h : s.selectVcpu cfg queue tsc = .ok best) : ∃ chosen, Points none nodes best.vnext chosen ∧
      Refreshed cfg tsc s.servers best.servers nodes chosen := by
  unfold selectVcpu at h
  have hlen : nodes.length < n + 1 := Nat.lt_succ_of_le hqueue.length_le_fin
  rw [forLinks_eq Fault.diverges _ _ hqueue hlen] at h
  obtain ⟨chosen, hfresh, hvnext⟩ := considerLoop_spec hqueue.nodup h
  refine ⟨chosen, ?_, hfresh⟩
  rcases hvnext with ⟨hnone, rfl⟩ | hpoints
  · exact .inl ⟨hnone, rfl⟩
  · exact hpoints

end Budgets

end Quest.Sched.Budgets
