import Quest.Sched.Vcpus

/-! Which VCPU `vcpu_schedule` selects.  The loop refreshes the budgets of those VCPUs only that
can still be selected. -/
namespace Quest.Sched.Selection

open Lib.LinkedList Hooks Sched.Core Sporadic Pibs Budgets Rules Refinement Vcpus List Function
open Lib.Reach Projection
open RunInvariants (Inv Initial)

section Choice

variable {ν : Type} (period : ν → Nat) (ready : ν → Bool)

def firstShortest (queue : List ν) : Option ν := (queue.filter ready).argmin period

@[simp] theorem firstShortest_eq_none {queue : List ν} :
    firstShortest period ready queue = none ↔ ∀ v ∈ queue, ready v = false := by
  simp [firstShortest, argmin_eq_none, filter_eq_nil_iff]

theorem firstShortest_mem {queue : List ν} {v : ν}
    (h : firstShortest period ready queue = some v) : v ∈ queue ∧ ready v = true :=
  mem_filter.mp (argmin_mem h)

theorem firstShortest_concat (xs : List ν) (u : ν) :
    firstShortest period ready (xs ++ [u]) =
      if ready u = true ∧ ∀ v ∈ firstShortest period ready xs, period u < period v then some u
      else firstShortest period ready xs := by
  unfold firstShortest
  rw [filter_append, filter_singleton]
  cases hready : ready u with
  | false => simp
  | true =>
    simp only [cond_true, argmin_concat]
    cases (xs.filter ready).argmin period with
    | none => simp
    | some v => simp

end Choice

section Loop

variable {σ τ : Type} {n : Nat} {cfg : Config σ τ n} {s : Scheduler σ τ n} {tsc : ScheduleTsc n}
  {servers fresh : Fin n → σ} {xs : List (Fin n)} {best : Selection σ n} {u v : Fin n}

def choice (cfg : Config σ τ n) (fresh : Fin n → σ) (queue : List (Fin n)) : Option (Fin n) :=
  firstShortest (fun v => cfg.period (fresh v)) (fun v => 0 < (cfg.hooks v).budget (fresh v)) queue

def Outdoes (cfg : Config σ τ n) (fresh : Fin n → σ) (queue : List (Fin n)) (v u : Fin n) : Prop :=
  cfg.period (fresh v) < cfg.period (fresh u) ∨
    cfg.period (fresh v) = cfg.period (fresh u) ∧ ∃ xs ys, queue = xs ++ ys ∧ v ∈ xs ∧ u ∈ ys

structure Scanned (cfg : Config σ τ n) (servers fresh : Fin n → σ) (xs : List (Fin n))
    (best : Selection σ n) : Prop where
  points : Points none xs best.vnext (choice cfg fresh xs)
  Tnext : best.Tnext = (choice cfg fresh xs).elim 0 fun v => cfg.period (fresh v)
  chosen : ∀ v, choice cfg fresh xs = some v → best.servers v = fresh v
  unseen : ∀ u, u ∉ xs → best.servers u = servers u
  seen : ∀ u ∈ xs, best.servers u = fresh u ∨
    best.servers u = servers u ∧ ∃ v, choice cfg fresh xs = some v ∧ Outdoes cfg fresh xs v u

structure Refreshes (cfg : Config σ τ n) (tsc : ScheduleTsc n) (servers fresh : Fin n → σ) :
    Prop where
  update : ∀ v, (cfg.hooks v).updateReplenishments (servers v) tsc.tcur (tsc.update v) =
    .ok (fresh v)
  period : ∀ v, cfg.period (fresh v) = cfg.period (servers v)
  positive : ∀ v, 0 < cfg.period (servers v)

theorem Outdoes.concat (h : Outdoes cfg fresh xs v u) (w : Fin n) :
    Outdoes cfg fresh (xs ++ [w]) v u := by
  refine h.imp_right fun ⟨hperiod, as, bs, hxs, hv, hu⟩ => ⟨hperiod, as, bs ++ [w], ?_, hv, ?_⟩
  · rw [hxs, append_assoc]
  · exact mem_append_left _ hu

theorem points_concat {vnext : Option (Option (Fin n))} {chosen : Option (Fin n)}
    (h : Points none xs vnext chosen) (u : Fin n) : Points none (xs ++ [u]) vnext chosen := by
  refine h.imp_right fun ⟨as, v, bs, hxs, hvnext, hchosen⟩ =>
    ⟨as, v, bs ++ [u], ?_, hvnext, hchosen⟩
  rw [hxs, append_assoc, cons_append]

theorem Scanned.open_iff (h : Scanned cfg servers fresh xs best)
    (hfresh : Refreshes cfg tsc servers fresh) (u : Fin n) :
    (best.Tnext = 0 ∨ cfg.period (servers u) < best.Tnext) ↔
      ∀ v ∈ choice cfg fresh xs, cfg.period (fresh u) < cfg.period (fresh v) := by
  rw [h.Tnext, ← hfresh.period u]
  cases choice cfg fresh xs with
  | none => simp
  | some v =>
    have hv : cfg.period (fresh v) ≠ 0 := by
      rw [hfresh.period v]
      exact Nat.ne_of_gt (hfresh.positive v)
    simp [hv]

theorem Scanned.consider (h : Scanned cfg servers fresh xs best)
    (hfresh : Refreshes cfg tsc servers fresh) (hu : u ∉ xs) :
    ∃ best', Scheduler.consider cfg tsc (linkAfter none xs) u best = .ok best' ∧
      Scanned cfg servers fresh (xs ++ [u]) best' := by
  have hchoice : choice cfg fresh (xs ++ [u]) =
      if 0 < (cfg.hooks u).budget (fresh u) ∧
        ∀ v ∈ choice cfg fresh xs, cfg.period (fresh u) < cfg.period (fresh v) then some u
      else choice cfg fresh xs := by
    simpa [choice] using firstShortest_concat _ (fun v => 0 < (cfg.hooks v).budget (fresh v)) xs u
  have hlater : ∀ w, w ∉ xs ++ [u] → w ∉ xs ∧ w ≠ u := by simp
  have hother : ∀ w ∈ xs, w ≠ u := fun w hw heq => hu (heq ▸ hw)
  unfold Scheduler.consider
  rw [h.unseen u hu]
  by_cases hopen : best.Tnext = 0 ∨ cfg.period (servers u) < best.Tnext
  · have hbefore := (h.open_iff hfresh u).mp hopen
    rw [if_pos hopen, hfresh.update u, ok_bind]
    by_cases hbudget : 0 < (cfg.hooks u).budget (fresh u)
    · -- `u` is the best so far, and outdoes all that were skipped.
      rw [if_pos ⟨hbudget, hbefore⟩] at hchoice
      refine ⟨_, if_pos hbudget, ?_, ?_, ?_, ?_, ?_⟩
      · exact hchoice ▸ .inr ⟨xs, u, [], rfl, rfl, rfl⟩
      · rw [hchoice]
        rfl
      · intro v hv
        cases hchoice.symm.trans hv
        exact update_self _ _ _
      · intro w hw
        dsimp only
        rw [update_of_ne (hlater w hw).2, h.unseen w (hlater w hw).1]
      · intro w hw
        dsimp only
        rcases mem_append.mp hw with hw | hw
        · rw [update_of_ne (hother w hw)]
          refine (h.seen w hw).imp_right fun ⟨hsame, v, hv, houtdoes⟩ => ⟨hsame, u, hchoice, ?_⟩
          have hless := hbefore v hv
          rcases houtdoes with hlt | ⟨heq, -⟩
          · exact .inl (by omega)
          · exact .inl (by omega)
        · rw [mem_singleton.mp hw, update_self]
          exact .inl rfl
    · rw [if_neg (fun hboth => hbudget hboth.1)] at hchoice
      refine ⟨_, if_neg hbudget, ?_, ?_, ?_, ?_, ?_⟩
      · rw [hchoice]
        exact points_concat h.points u
      · rw [hchoice]
        exact h.Tnext
      · intro v hv
        rw [hchoice] at hv
        have hmem := (firstShortest_mem _ _ hv).1
        dsimp only
        rw [update_of_ne (hother v hmem), h.chosen v hv]
      · intro w hw
        dsimp only
        rw [update_of_ne (hlater w hw).2, h.unseen w (hlater w hw).1]
      · intro w hw
        dsimp only
        rcases mem_append.mp hw with hw | hw
        · rw [update_of_ne (hother w hw), hchoice]
          exact (h.seen w hw).imp_right fun ⟨hsame, v, hv, houtdoes⟩ =>
            ⟨hsame, v, hv, houtdoes.concat u⟩
        · rw [mem_singleton.mp hw, update_self]
          exact .inl rfl
  · -- A VCPU with a period that is not longer has been found.
    have hskip := mt (h.open_iff hfresh u).mpr hopen
    rw [if_neg (fun hboth => hskip hboth.2)] at hchoice
    refine ⟨best, if_neg hopen, ?_, ?_, ?_, ?_, ?_⟩
    · rw [hchoice]
      exact points_concat h.points u
    · rw [hchoice]
      exact h.Tnext
    · rw [hchoice]
      exact h.chosen
    · exact fun w hw => h.unseen w (hlater w hw).1
    · intro w hw
      rw [hchoice]
      rcases mem_append.mp hw with hw | hw
      · exact (h.seen w hw).imp_right fun ⟨hsame, v, hv, houtdoes⟩ =>
          ⟨hsame, v, hv, houtdoes.concat u⟩
      · rw [mem_singleton.mp hw]
        push Not at hskip
        obtain ⟨v, hv, hle⟩ := hskip
        refine .inr ⟨h.unseen u hu, v, hv, ?_⟩
        rcases Nat.lt_or_eq_of_le hle with hlt | heq
        · exact .inl hlt
        · exact .inr ⟨heq, xs, [u], rfl, (firstShortest_mem _ _ hv).1, mem_singleton_self u⟩

theorem considerLoop_scanned (hfresh : Refreshes cfg tsc servers fresh) (hnodup : xs.Nodup) :
    ∃ best, (links none xs).foldlM (fun best x => Scheduler.consider cfg tsc x.1 x.2 best)
      (⟨servers, 0, none⟩ : Selection σ n) = .ok best ∧ Scanned cfg servers fresh xs best := by
  induction xs using reverseRecOn with
  | nil => exact ⟨_, rfl, .inl ⟨rfl, rfl⟩, rfl, nofun, fun _ _ => rfl, nofun⟩
  | append_singleton xs u ih =>
    obtain ⟨hxs, -, hdisj⟩ := nodup_append.mp hnodup
    have hu : u ∉ xs := fun hmem => hdisj u hmem u (mem_singleton_self u) rfl
    obtain ⟨best, hbest, hscan⟩ := ih hxs
    obtain ⟨best', hbest', hscan'⟩ := hscan.consider hfresh hu
    refine ⟨best', ?_, hscan'⟩
    rw [links_concat, foldlM_append, hbest, ok_bind, foldlM_cons, hbest']
    rfl

theorem selectVcpu_scanned {queue : Option (Fin n)} {nodes : List (Fin n)}
    (hfresh : Refreshes cfg tsc s.servers fresh) (hqueue : Chain s.vnext queue nodes) :
    ∃ best, s.selectVcpu cfg queue tsc = .ok best ∧ Scanned cfg s.servers fresh nodes best := by
  have hlen : nodes.length < n + 1 := Nat.lt_succ_of_le hqueue.length_le_fin
  unfold Scheduler.selectVcpu
  rw [forLinks_eq Fault.diverges _ _ hqueue hlen]
  exact considerLoop_scanned hfresh hqueue.nodup

end Loop

section Call

variable {σ τ : Type} {n : Nat} [DecidableEq τ] [Fintype τ] {cfg : Config σ τ n}
  {s : Scheduler σ τ n} {b : Board τ (Fin n) Nat} {p : Nat} {tsc : ScheduleTsc n}
  {fresh : Fin n → σ} {x : Scheduler.Outcome σ τ n}

structure Passed (cfg : Config σ τ n) (s : Scheduler σ τ n) (b : Board τ (Fin n) Nat) (p : Nat)
    (tsc : ScheduleTsc n) (fresh : Fin n → σ) (x : Scheduler.Outcome σ τ n) : Prop where
  selected : x.vcpu = choice cfg fresh (b.queue p)
  scanned : ∃ best, Scanned cfg x.charged fresh (b.queue p) best ∧ x.left.servers = best.servers ∧
    x.left.eventDelta cfg tsc best.Tnext x.vcpu (x.left.vcpuQueue p) = .ok x.tdelta
  idle : x.vcpu = none → x.left.toLinks = s.toLinks.setCurrent p none
  picked : ∀ v, x.vcpu = some v → ∃ t ∈ b.tasks v, (x.left.vcpus v).tr = some t ∧
    Sound cfg x.left.toLinks (b.pick p v t
      (if (b.tasks v).erase t = [] then (b.queue p).erase v else b.queue p))
  str : x.left.str = s.str
  idleTask : x.left.vcpuIdleTask = s.vcpuIdleTask

theorem pass_charged (hpass : s.pass cfg p tsc = .ok x) : Charged cfg s p tsc x.charged := by
  obtain ⟨s0, best, vcpu, queue, l, tdelta, hslice, -, -, -, rfl⟩ := pass_cases hpass
  exact endTimeslice_charged hslice

theorem pass_spec (h : Sound cfg s.toLinks b) (hpass : s.pass cfg p tsc = .ok x)
    (hfresh : Refreshes cfg tsc x.charged fresh) : Passed cfg s b p tsc fresh x := by
  obtain ⟨s0, best, vcpu, queue, l, tdelta, hslice, hbest, hdisp, hdelta, rfl⟩ :=
    pass_cases hpass
  obtain ⟨hlinks, hstr, hidle, -⟩ := endTimeslice_unmoved hslice
  have hchain : Chain s0.vnext (s.vcpuQueue p) (b.queue p) := by
    rw [hlinks]
    exact h.queue.chain p
  obtain ⟨best', hbest', hscan⟩ := selectVcpu_scanned hfresh hchain
  obtain rfl : best' = best := Except.ok.inj (hbest'.symm.trans hbest)
  rcases hscan.points with ⟨hvnext, hnone⟩ | ⟨xs, v, ys, hp, hvnext, hsome⟩
  · rw [hvnext] at hdisp
    cases hdisp
    exact ⟨hnone.symm, ⟨best', hscan, rfl, hdelta⟩, fun _ => rfl, nofun, hstr, hidle⟩
  · obtain ⟨t, rest, runnable, nextSchedule, queue', l', heq, ht, hrest, -, hsound, hqueue, hvcpus,
      -⟩ := dispatch_spec h s0.accounts hp
    rw [hvnext, heq] at hdisp
    cases hdisp
    have hout : v ∉ xs := by
      have hnodup := h.consistent.orderly p
      rw [hp, nodup_middle] at hnodup
      exact fun hv => (nodup_cons.mp hnodup).1 (mem_append_left _ hv)
    have herase : (b.queue p).erase v = xs ++ ys := by
      rw [hp, erase_append_right _ hout, erase_cons_head]
    refine ⟨hsome.symm, ⟨best', hscan, rfl, ?_⟩, nofun, ?_, hstr, hidle⟩
    · rw [hqueue]
      exact hdelta
    · intro u hu
      cases hu
      refine ⟨t, ht, ?_, ?_⟩
      · rw [hvcpus, update_self]
      · rw [herase, ← hrest]
        exact hsound

end Call

section Vcpus

def remaining : Budget → Nat := Sum.elim MainVcpu.b IoVcpu.b

def refreshed (tcur : Nat) : Budget → Budget :=
  Sum.map (fun v => mainVcpuUpdateReplenishments v tcur tcur)
    fun v => ioVcpuUpdateReplenishments v tcur

variable {τ : Type} {n : Nat} {cfg : Config Budget τ n} {r r' : Budget} {v : Fin n}

def OfType (cfg : Config Budget τ n) (v : Fin n) (r : Budget) : Prop :=
  r.isLeft = true ↔ cfg.type v = .main

theorem ofType_cases (h : OfType cfg v r) :
    (cfg.type v = .main ∧ ∃ m, r = .inl m) ∨ cfg.type v = .io ∧ ∃ i, r = .inr i := by
  cases r with
  | inl m => exact .inl ⟨h.mp rfl, m, rfl⟩
  | inr i =>
    cases hv : cfg.type v with
    | main => exact absurd (h.mpr hv) (by simp)
    | io => exact .inr ⟨rfl, i, rfl⟩

theorem kept_ofType (h : Kept cfg v r) : OfType cfg v r := by
  rcases h with ⟨hv, m, -, -, -, rfl, -⟩ | ⟨hv, i, rfl⟩
  · simp [OfType, hv]
  · simp [OfType, hv]

theorem hooks_budget (htyped : Typed cfg) (h : OfType cfg v r) :
    (cfg.hooks v).budget r = remaining r := by
  rw [htyped.hooks]
  rcases ofType_cases h with ⟨hv, m, rfl⟩ | ⟨hv, i, rfl⟩
  · rw [hv]
    rfl
  · rw [hv]
    rfl

theorem hooks_update (htyped : Typed cfg) (h : OfType cfg v r) (tcur : Nat) :
    (cfg.hooks v).updateReplenishments r tcur (.at tcur) = .ok (refreshed tcur r) := by
  rw [htyped.hooks]
  rcases ofType_cases h with ⟨hv, m, rfl⟩ | ⟨hv, i, rfl⟩
  · rw [hv]
    rfl
  · rw [hv]
    rfl

theorem refreshed_ofType (h : OfType cfg v r) (tcur : Nat) : OfType cfg v (refreshed tcur r) := by
  cases r <;> exact h

theorem refreshed_period (tcur : Nat) (r : Budget) : period (refreshed tcur r) = period r := by
  cases r with
  | inl m => rfl
  | inr i =>
    simp only [refreshed, Sum.map_inr, period, Sum.elim_inr, ioVcpuUpdateReplenishments]
    split <;> rfl

theorem ioVcpuEndTimeslice_period (i : IoVcpu) (runnable : Bool) (tdelta : Nat) :
    (ioVcpuEndTimeslice i runnable tdelta).T = i.T := by
  unfold ioVcpuEndTimeslice
  dsimp only
  split <;> split <;> rfl

theorem endTimeslice_kept (htyped : Typed cfg) (h : OfType cfg v r) {runnable : Bool} {tdelta : Nat}
    {tsc : Tsc} (hcall : (cfg.hooks v).endTimeslice r runnable tdelta tsc = .ok r') :
    OfType cfg v r' ∧ period r' = period r := by
  rw [htyped.hooks] at hcall
  rcases ofType_cases h with ⟨hv, m, rfl⟩ | ⟨hv, i, rfl⟩
  · rw [hv] at hcall
    obtain ⟨m', hm', rfl⟩ := map_eq_ok.mp hcall
    exact ⟨h, mainVcpuEndTimeslice_period hm'⟩
  · rw [hv] at hcall
    have hok : Except.ok (.inr (ioVcpuEndTimeslice i runnable tdelta)) = .ok r' := hcall
    cases hok
    exact ⟨h, ioVcpuEndTimeslice_period i runnable tdelta⟩

variable {s s' : Scheduler Budget τ n} {p tcur : Nat} {servers : Fin n → Budget}

theorem charged_kept {tsc : ScheduleTsc n} (htyped : Typed cfg)
    (hservers : ∀ v, OfType cfg v (s.servers v)) (hcharge : Charged cfg s p tsc servers)
    (v : Fin n) : OfType cfg v (servers v) ∧ period (servers v) = period (s.servers v) := by
  by_cases hcur : s.vcpuCurrent p = some v
  · exact endTimeslice_kept htyped (hservers v) (hcharge.current v hcur)
  · rw [hcharge.other v hcur]
    exact ⟨hservers v, rfl⟩

theorem refreshes_at (htyped : Typed cfg) (hservers : ∀ v, OfType cfg v (s.servers v))
    (hpos : ∀ v, 0 < period (s.servers v)) (hcharge : Charged cfg s p (.at tcur) servers) :
    Refreshes cfg (.at tcur) servers fun v => refreshed tcur (servers v) := by
  have hkept := charged_kept htyped hservers hcharge
  refine ⟨fun v => hooks_update htyped (hkept v).1 tcur, fun v => ?_, fun v => ?_⟩
  · rw [htyped.period]
    exact refreshed_period tcur (servers v)
  · rw [htyped.period, (hkept v).2]
    exact hpos v

theorem choice_eq (htyped : Typed cfg) (hservers : ∀ v, OfType cfg v (servers v))
    (queue : List (Fin n)) :
    choice cfg (fun v => refreshed tcur (servers v)) queue =
      firstShortest (fun v => period (servers v))
        (fun v => 0 < remaining (refreshed tcur (servers v))) queue := by
  have hbudget : ∀ v, (cfg.hooks v).budget (refreshed tcur (servers v)) =
      remaining (refreshed tcur (servers v)) :=
    fun v => hooks_budget htyped (refreshed_ofType (hservers v) tcur)
  simp only [choice, hbudget, htyped.period, refreshed_period]

variable [Fintype τ]

/-- How a call at `tcur` is to end, where `servers` are the budgets after the end of
the timeslice. -/
structure Selected (cfg : Config Budget τ n) (s s' : Scheduler Budget τ n) (p tcur : Nat)
    (servers : Fin n → Budget) : Prop where
  current : s'.vcpuCurrent p = firstShortest (fun v => period (servers v))
    (fun v => 0 < remaining (refreshed tcur (servers v))) ((board s.toLinks).queue p)
  idle : s'.vcpuCurrent p = none ↔
    ∀ v ∈ (board s.toLinks).queue p, remaining (refreshed tcur (servers v)) = 0
  task : ∀ v, s'.vcpuCurrent p = some v → ∃ t ∈ (board s.toLinks).tasks v, s'.str p = some t
  idleTask : s'.vcpuCurrent p = none →
    s'.str p = some ((s.vcpuIdleTask p).getD (cfg.idleTss p))
  order : ∀ v, s'.vcpuCurrent p = some v → (board s'.toLinks).queue p =
    if (board s'.toLinks).tasks v = [] then ((board s.toLinks).queue p).erase v
    else (board s.toLinks).queue p
  kept : s'.vcpuCurrent p = none → (board s'.toLinks).queue p = (board s.toLinks).queue p

variable [DecidableEq τ]

theorem selected_of_pass {x : Scheduler.Outcome Budget τ n} (htyped : Typed cfg)
    (h : Sound cfg s.toLinks (board s.toLinks)) (hservers : ∀ v, OfType cfg v (x.charged v))
    (hpass : Passed cfg s (board s.toLinks) p (.at tcur)
      (fun v => refreshed tcur (x.charged v)) x) :
    Selected cfg s (s.finish cfg p (.at tcur) x) p tcur x.charged := by
  have hswitch : Switched cfg s (s.finish cfg p (.at tcur) x) p x.left.toLinks x.vcpu :=
    finish_switched hpass.str hpass.idleTask
  have hchoice := hpass.selected.trans (choice_eq htyped hservers _)
  have hidle : x.vcpu = none ↔
      ∀ v ∈ (board s.toLinks).queue p, remaining (refreshed tcur (x.charged v)) = 0 := by
    rw [hchoice]
    simp
  cases hvcpu : x.vcpu with
  | none =>
    rw [hvcpu] at hswitch hchoice hidle
    obtain ⟨hlinks, hstr⟩ := hswitch.idle nofun
    rw [hpass.idle hvcpu, setRunning_none, setCurrent_idem] at hlinks
    have hsound := (h.idle p).setRunning (s.vcpuCurrent p) false
    rw [← hlinks] at hsound
    have hnone : (s.finish cfg p (.at tcur) x).vcpuCurrent p = none := by
      rw [hsound.current]
      exact update_self _ _ _
    refine ⟨hnone.trans hchoice, ?_, ?_, fun _ => ?_, ?_, fun _ => ?_⟩
    · rw [hnone]
      exact hidle
    · exact fun v hv => absurd (hnone.symm.trans hv) nofun
    · rw [hstr, update_self]
    · exact fun v hv => absurd (hnone.symm.trans hv) nofun
    · rw [hsound.board_eq]
      rfl
  | some v =>
    obtain ⟨t, ht, htr, hpicked⟩ := hpass.picked v hvcpu
    rw [hvcpu] at hswitch hchoice hidle
    obtain ⟨hlinks, hstr⟩ := hswitch.task v t rfl htr
    have hsound := (hpicked.setRunning (s.vcpuCurrent p) false).setRunning (some v) true
    rw [← hlinks] at hsound
    have hsome : (s.finish cfg p (.at tcur) x).vcpuCurrent p = some v := by
      rw [hsound.current]
      exact update_self _ _ _
    refine ⟨hsome.trans hchoice, ?_, ?_, ?_, ?_, ?_⟩
    · rw [hsome]
      exact hidle
    · intro u hu
      cases hsome.symm.trans hu
      exact ⟨t, ht, by rw [hstr, update_self]⟩
    · exact fun hnone => absurd (hsome.symm.trans hnone) nofun
    · intro u hu
      cases hsome.symm.trans hu
      rw [hsound.board_eq]
      simp only [Board.pick, update_self]
    · exact fun hnone => absurd (hsome.symm.trans hnone) nofun

/-- When all clock readings show `tcur`, `vcpu_schedule` selects the first VCPU with the shortest
period among those with a positive refreshed budget, or goes idle, and leaves the others in their
order. -/
theorem shortest_period_selected (htyped : Typed cfg) (hinv : Inv cfg s)
    (hservers : ∀ v, OfType cfg v (s.servers v)) (hpositive : ∀ v, 0 < period (s.servers v))
    (p tcur : Nat) :
    (∀ s', s.vcpuSchedule cfg p (.at tcur) = .ok s' →
      ∃ servers, Charged cfg s p (.at tcur) servers ∧ Selected cfg s s' p tcur servers) ∧
      ((∀ v, Kept cfg v (s.servers v)) → ∃ s', s.vcpuSchedule cfg p (.at tcur) = .ok s') := by
  constructor
  · intro s' hcall
    rw [Scheduler.vcpuSchedule_eq] at hcall
    obtain ⟨x, hpass, rfl⟩ := map_eq_ok.mp hcall
    have hcharged := pass_charged hpass
    have hfresh := refreshes_at htyped hservers hpositive hcharged
    refine ⟨x.charged, hcharged, selected_of_pass htyped hinv.1 ?_ (pass_spec hinv.1 hpass hfresh)⟩
    exact fun v => (charged_kept htyped hservers hcharged v).1
  · exact fun hkept => Progress.vcpuSchedule_returns (kept_lasting htyped).hooks hkept p _ hinv.1

end Vcpus

section Periods

variable {τ : Type} {n : Nat} {cfg : Config Budget τ n} {r r' : Budget} {v : Fin n}

theorem update_kept (htyped : Typed cfg) (h : OfType cfg v r) {tcur : Nat} {tsc : Tsc}
    (hcall : (cfg.hooks v).updateReplenishments r tcur tsc = .ok r') : period r' = period r := by
  rw [htyped.hooks] at hcall
  rcases ofType_cases h with ⟨hv, m, rfl⟩ | ⟨hv, i, rfl⟩
  · rw [hv] at hcall
    cases hcall
    rfl
  · rw [hv] at hcall
    have hok : Except.ok (.inr (ioVcpuUpdateReplenishments i tcur)) = .ok r' := hcall
    cases hok
    exact refreshed_period tcur (.inr i)

theorem unblock_kept (htyped : Typed cfg) (h : OfType cfg v r) {tsc : Tsc}
    (hcall : (cfg.hooks v).unblock r tsc = .ok r') : period r' = period r := by
  rw [htyped.hooks] at hcall
  rcases ofType_cases h with ⟨hv, m, rfl⟩ | ⟨hv, i, rfl⟩
  · rw [hv] at hcall
    obtain ⟨m', hm', rfl⟩ := map_eq_ok.mp hcall
    exact mainVcpuUnblock_period hm'
  · rw [hv] at hcall
    have hok : Except.ok (.inr (ioVcpuUnblock i tsc.first)) = .ok r' := hcall
    cases hok
    rfl

/-- The budget is as it has to be, and the period is positive. -/
def Periodic (cfg : Config Budget τ n) (v : Fin n) (r : Budget) : Prop :=
  Kept cfg v r ∧ 0 < period r

theorem periodic_responsive (htyped : Typed cfg) (v : Fin n) :
    Progress.Responsive (cfg.hooks v) (Periodic cfg v) := by
  have hkept := (kept_lasting htyped).hooks v
  refine ⟨?_, fun r hr => hkept.nextEvent r hr.1, ?_, ?_⟩
  · rintro r ⟨hr, hpos⟩ tcur tsc
    obtain ⟨r', hcall, hr'⟩ := hkept.update r hr tcur tsc
    exact ⟨r', hcall, hr', update_kept htyped (kept_ofType hr) hcall ▸ hpos⟩
  · rintro r ⟨hr, hpos⟩ runnable tdelta tsc
    obtain ⟨r', hcall, hr'⟩ := hkept.endTimeslice r hr runnable tdelta tsc
    exact ⟨r', hcall, hr', (endTimeslice_kept htyped (kept_ofType hr) hcall).2 ▸ hpos⟩
  · rintro r ⟨hr, hpos⟩ tsc hread
    obtain ⟨r', hcall, hr'⟩ := hkept.unblock r hr tsc hread
    exact ⟨r', hcall, hr', unblock_kept htyped (kept_ofType hr) hcall ▸ hpos⟩

theorem periodic_assignable (htyped : Typed cfg) {T : Nat} (hT : 0 < T) :
    Progress.Assignable cfg (Periodic cfg) T := by
  rintro v r hv ⟨hr, -⟩
  refine ⟨(kept_lasting htyped).period v r T hv hr, ?_⟩
  rw [htyped.setPeriod]
  cases r <;> exact hT

variable [DecidableEq τ] [Fintype τ]

def Requested (cfg : Config Budget τ n) (c : Clocked Budget τ n) (event : Event τ n) : Prop :=
  Forward cfg c event ∧ ∀ T ∈ Progress.assigned event, 0 < T

theorem reached_periodic (htyped : Typed cfg) {start c : Clocked Budget τ n}
    (hstart : Initial start.sched) (hservers : ∀ v, Periodic cfg v (start.sched.servers v))
    (hreach : Reaches (step cfg) (Requested cfg) start c) :
    Inv cfg c.sched ∧ ∀ v, Periodic cfg v (c.sched.servers v) :=
  Progress.reached_good (periodic_responsive htyped)
    (fun _ _ h => ⟨h.1, fun T hT => periodic_assignable htyped (h.2 T hT)⟩) hstart hservers hreach

end Periods

/-! A Main VCPU and an IO VCPU on one PCPU, for runs on given readings. -/

section MainAndIo

local instance neZeroTwo : NeZero 2 := ⟨by decide⟩

local instance neZeroFour : NeZero 4 := ⟨by decide⟩

theorem two_unbound_free : 2 ≤ 0xFF := by decide

def mainAndIo : Config Budget (Fin 4) 2 where
  hooks v := vcpuHooksTable (if v = 0 then .main else .io)
  period := period
  setPeriod := assignPeriod
  type v := if v = 0 then .main else .io
  cpu _ := 0
  quantum _ := 1000
  idleTss _ := 3
  cpuBusFreq := 100000
  tscFreq := 100000
  tscFreq_pos := by decide
  unbound_free := two_unbound_free

theorem mainAndIo_typed : Typed mainAndIo := ⟨fun _ => rfl, rfl, rfl⟩

def mainAndIoBoot : Option (Clocked Budget (Fin 4) 2) :=
  match mainVcpuInit 50 100 1 with
  | .ok v0 => some ⟨.boot ![0, 0, 1, 0xFF] ![.inl v0, .inr (ioVcpuInit 1 2 1)], 1, fun _ => []⟩
  | .error _ => none

theorem mainAndIoBoot_start {start : Clocked Budget (Fin 4) 2} (h : mainAndIoBoot = some start) :
    Initial start.sched ∧ ∀ v, Periodic mainAndIo v (start.sched.servers v) := by
  have htype : mainAndIo.type 0 = .main := rfl
  obtain ⟨r, hinit, hkept⟩ := mainVcpuInit_kept 50 100 1 (by decide) (by decide) htype
  simp only [mainAndIoBoot, hinit, Option.some.injEq] at h
  subst h
  have hperiod : r.T = 100 := by
    obtain ⟨Q, -, heq⟩ := bind_eq_ok.mp hinit
    cases heq
    rfl
  refine ⟨⟨fun _ => rfl, fun _ => rfl, fun _ => rfl, fun _ => rfl⟩, fun v => ?_⟩
  match v with
  | 0 => exact ⟨hkept, by simp [Scheduler.boot, period, hperiod]⟩
  | 1 => exact ⟨.inr ⟨rfl, _, rfl⟩, show 0 < (ioVcpuInit 1 2 1).T by decide⟩

instance (clock : Nat) (tsc : ScheduleTsc 2) : Decidable (ScheduleForward clock tsc) :=
  decidable_of_iff (((clock ≤ tsc.tcur ∧ tsc.tcur ≤ tsc.endTimeslice.first) ∧
      tsc.endTimeslice.first ≤ tsc.endTimeslice.second ∧
      tsc.endTimeslice.second ≤ tsc.endTimeslice.third) ∧
      (∀ v, tsc.endTimeslice.third ≤ (tsc.update v).first ∧ (tsc.update v).first ≤ tsc.acntBegin) ∧
      tsc.endTimeslice.third ≤ tsc.acntBegin ∧ tsc.tcur < 2 ^ 64)
    ⟨fun h => ⟨h.1.1, h.1.2, h.2.1, h.2.2.1, h.2.2.2⟩,
      fun h => ⟨⟨h.tcur, h.endTimeslice⟩, h.update, h.acntBegin, h.fits⟩⟩

instance (c : Clocked Budget (Fin 4) 2) (event : Event (Fin 4) 2) :
    Decidable (Requested mainAndIo c event) := by
  unfold Requested Forward WakeupForward
  cases event <;> exact inferInstance

def mainAndIoRun (events : List (Event (Fin 4) 2)) : Option (Clocked Budget (Fin 4) 2) :=
  mainAndIoBoot.bind fun start => replay (step mainAndIo) (Requested mainAndIo) start events

theorem mainAndIoRun_reaches {events : List (Event (Fin 4) 2)} {c : Clocked Budget (Fin 4) 2}
    (hrun : mainAndIoRun events = some c) :
    ∃ start, (Initial start.sched ∧ ∀ v, Periodic mainAndIo v (start.sched.servers v)) ∧
      Reaches (step mainAndIo) (Requested mainAndIo) start c := by
  obtain ⟨start, hboot, hevents⟩ := Option.bind_eq_some_iff.mp hrun
  exact ⟨start, mainAndIoBoot_start hboot, Reaches.refl.replay hevents⟩

def wakeupAt (now : Nat) : WakeupTsc := ⟨.at now, now, .at now⟩

/-- A task of the Main VCPU has the IO VCPU do a job for it, with its own period. -/
def jobEvents : List (Event (Fin 4) 2) :=
  [.wakeup 0 0 (wakeupAt 10), .wakeup 0 1 (wakeupAt 10), .schedule 0 (.at 20),
    .jobWakeup 0 2 100 (wakeupAt 20), .wakeup 0 0 (wakeupAt 70), .schedule 0 (.at 70),
    .wakeup 0 2 (wakeupAt 120)]

/-- At 120 both VCPUs are queued and have the same period, and the Main VCPU, whose
budget has been replenished, comes first. -/
theorem shortest_period_selected_replenished : ∃ c s', mainAndIoRun jobEvents = some c ∧
    c.sched.vcpuSchedule mainAndIo 0 (.at 120) = .ok s' ∧ s'.vcpuCurrent 0 = some 0 ∧
    (board c.sched.toLinks).queue 0 = [0, 1] ∧
    ∃ servers, Selected mainAndIo c.sched s' 0 120 servers := by
  have hrun : (mainAndIoRun jobEvents).map (fun c => (board c.sched.toLinks).queue 0) =
      some [0, 1] := by decide +kernel
  have hcall : ((mainAndIoRun jobEvents).bind fun c =>
      (c.sched.vcpuSchedule mainAndIo 0 (.at 120)).toOption.map fun s' => s'.vcpuCurrent 0) =
        some (some 0) := by decide +kernel
  obtain ⟨c, hc, hqueue⟩ := Option.map_eq_some_iff.mp hrun
  obtain ⟨start, ⟨hstart, hservers⟩, hreach⟩ := mainAndIoRun_reaches hc
  obtain ⟨hinv, hperiodic⟩ := reached_periodic mainAndIo_typed hstart hservers hreach
  obtain ⟨hselected, hreturns⟩ := shortest_period_selected mainAndIo_typed hinv
    (fun v => kept_ofType (hperiodic v).1) (fun v => (hperiodic v).2) 0 120
  obtain ⟨s', hs'⟩ := hreturns fun v => (hperiodic v).1
  obtain ⟨servers, -, hends⟩ := hselected s' hs'
  refine ⟨c, s', hc, hs', ?_, hqueue, servers, hends⟩
  simpa [hc, hs', Except.toOption] using hcall

theorem mainAndIoRun_forward {events : List (Event (Fin 4) 2)} {c : Clocked Budget (Fin 4) 2}
    (hrun : mainAndIoRun events = some c) :
    ∃ start r, start.charges 0 = [] ∧ start.sched.servers 0 = .inl r ∧
      Initial start.sched ∧ (∀ v, Kept mainAndIo v (start.sched.servers v)) ∧
      Reaches (step mainAndIo) (Forward mainAndIo) start c := by
  obtain ⟨start, hboot, hevents⟩ := Option.bind_eq_some_iff.mp hrun
  obtain ⟨hstart, hservers⟩ := mainAndIoBoot_start hboot
  unfold mainAndIoBoot at hboot
  split at hboot
  · rename_i r hinit
    cases hboot
    refine ⟨_, r, rfl, rfl, hstart, fun v => (hservers v).1, ?_⟩
    refine (Reaches.refl.replay hevents).invariant (Reaches _ _ _) .refl ?_
    exact fun _ _ _ hreach hevent hstep => hreach.tail hevent.1 hstep
  · cases hboot

theorem vcpus_reached_job : ∃ c h, mainAndIoRun jobEvents = some c ∧
    Hosts mainAndIo 0 c (asBudget .inl h) ∧ h.charges = [(20, 70)] := by
  have hrun : (mainAndIoRun jobEvents).map (fun c => c.charges 0) = some [(20, 70)] := by
    decide +kernel
  obtain ⟨c, hc, hcharges⟩ := Option.map_eq_some_iff.mp hrun
  obtain ⟨start, r, hnone, hr, hstart, -, hreach⟩ := mainAndIoRun_forward hc
  obtain ⟨h, -, hhosts⟩ := (vcpus_reached mainAndIo_typed hstart hnone hreach).1 r rfl hr
  exact ⟨c, h, hc, hhosts, hhosts.charges.symm.trans hcharges⟩

end MainAndIo

end Quest.Sched.Selection
