import Quest.Lib.RunningMin
import Quest.Sched.Selection

/-! The interval for which `vcpu_schedule` programs the timer: a running minimum of the budget of
the VCPU selected and of the times to the replenishments of those on the queue, in which 0 stands
for "no event yet". -/
namespace Quest.Sched.PreemptionTimer

open Lib.LinkedList Lib.Reach Lib.RunningMin Hooks Sched.Core Sporadic Pibs Budgets Rules Scheduler
open Refinement Vcpus Selection Projection Progress
open RunInvariants (Inv Initial)

variable {τ : Type} {n : Nat}

section Events

variable {cfg : Config Budget τ n} {v : Fin n} {r : Budget} {tcur : Nat}

def nextEvent (tcur : Nat) : Budget → Nat :=
  Sum.elim (fun m => (mainVcpuNextEvent m tcur).toOption.getD 0) ioVcpuNextEvent

theorem nextEvent_eq (htyped : Typed cfg) (h : Kept cfg v r) (tcur : Nat) :
    (cfg.hooks v).nextEvent r (.at tcur) = .ok (nextEvent tcur r) := by
  rw [htyped.hooks]
  rcases h with ⟨hv, m, C, T, a, rfl, hkeeps⟩ | ⟨hv, i, rfl⟩
  · have hnext := mainVcpuNextEvent_eq hkeeps.1.represents tcur
    rw [hv]
    simp only [nextEvent, Sum.elim_inl, hnext]
    exact hnext
  · rw [hv]
    rfl

theorem ledger_nextEvent_later {now : Nat} {es : List Ledger.Entry}
    (h : Ledger.nextEvent now es ≠ 0) : now < Ledger.nextEvent now es := by
  unfold Ledger.nextEvent at h ⊢
  cases hfind : es.find? fun r => now < r.t with
  | none => simp [hfind] at h
  | some e => simpa using List.find?_some hfind

theorem main_event_later {m : MainVcpu} (h : Kept cfg v (.inl m))
    (hevent : nextEvent tcur (.inl m) ≠ 0) : tcur < nextEvent tcur (.inl m) := by
  rcases h with ⟨-, m', C, T, a, heq, hkeeps⟩ | ⟨-, i, heq⟩
  · cases heq
    have hnext : nextEvent tcur (.inl m) = Ledger.nextEvent tcur a.es := by
      simp only [nextEvent, Sum.elim_inl, mainVcpuNextEvent_eq hkeeps.1.represents tcur]
      rfl
    rw [hnext] at hevent ⊢
    exact ledger_nextEvent_later hevent
  · cases heq

theorem io_event_later {i : IoVcpu} (hevent : nextEvent tcur (refreshed tcur (.inr i)) ≠ 0) :
    tcur < nextEvent tcur (refreshed tcur (.inr i)) := by
  simp only [nextEvent, refreshed, Sum.map_inr, Sum.elim_inr, ioVcpuNextEvent,
    ioVcpuUpdateReplenishments] at hevent ⊢
  split at hevent
  · exact absurd rfl hevent
  · rename_i hdue
    rw [if_neg hdue]
    exact Nat.lt_of_not_le fun hle => hdue ⟨hevent, hle⟩

end Events

section Loop

variable {cfg : Config Budget τ n} {s : Scheduler Budget τ n} {tcur Tnext : Nat}

theorem sooner_eq (htyped : Typed cfg) {u : Fin n} (hkept : Kept cfg u (s.servers u))
    (tdelta : Nat) :
    s.sooner cfg (.at tcur) Tnext u tdelta =
      .ok (if (Tnext = 0 ∨ period (s.servers u) ≤ Tnext) ∧ nextEvent tcur (s.servers u) ≠ 0 then
        runningMin tdelta (u64 (nextEvent tcur (s.servers u) - tcur)) else tdelta) := by
  unfold sooner
  rw [htyped.period]
  by_cases hperiod : Tnext = 0 ∨ period (s.servers u) ≤ Tnext
  · have hevent : (cfg.hooks u).nextEvent (s.servers u)
        ((ScheduleTsc.at tcur : ScheduleTsc n).nextEvent u) =
          .ok (nextEvent tcur (s.servers u)) := nextEvent_eq htyped hkept tcur
    rw [if_pos hperiod, hevent, ok_bind]
    by_cases hnone : nextEvent tcur (s.servers u) = 0
    · simp [hnone]
    · simp only [hperiod, hnone, ne_eq, not_false_eq_true, true_and, and_self, if_true, runningMin,
        bot_eq_zero, ScheduleTsc.at_tcur]
      exact (apply_ite Except.ok _ _ _).symm
  · rw [if_neg hperiod, if_neg (fun h => hperiod h.1)]

theorem soonerLoop_eq (htyped : Typed cfg) (hkept : ∀ u, Kept cfg u (s.servers u))
    (link : Option (Fin n)) (nodes : List (Fin n)) (tdelta : Nat) :
    (links link nodes).foldlM (fun d x => s.sooner cfg (.at tcur) Tnext x.2 d) tdelta =
      .ok (((((nodes.filter fun u => Tnext = 0 ∨ period (s.servers u) ≤ Tnext).map
        fun u => nextEvent tcur (s.servers u)).filter (· ≠ 0)).map
          fun (e : Nat) => u64 (e - tcur)).foldl runningMin tdelta) := by
  induction nodes generalizing link tdelta with
  | nil => rfl
  | cons u nodes ih =>
    rw [links, List.foldlM_cons, sooner_eq htyped (hkept u), ok_bind, ih]
    by_cases hperiod : Tnext = 0 ∨ period (s.servers u) ≤ Tnext
    · by_cases hnone : nextEvent tcur (s.servers u) = 0
      · simp [hperiod, hnone]
      · simp [hperiod, hnone]
    · simp [hperiod]

theorem eventDelta_eq (htyped : Typed cfg) (hkept : ∀ u, Kept cfg u (s.servers u))
    (vcpu : Option (Fin n)) {queue : Option (Fin n)} {nodes : List (Fin n)}
    (hqueue : Chain s.vnext queue nodes) :
    s.eventDelta cfg (.at tcur) Tnext vcpu queue =
      .ok (((((nodes.filter fun u => Tnext = 0 ∨ period (s.servers u) ≤ Tnext).map
        fun u => nextEvent tcur (s.servers u)).filter (· ≠ 0)).map
          fun (e : Nat) => u64 (e - tcur)).foldl runningMin
            (vcpu.elim 0 fun v => remaining (s.servers v))) := by
  have hlen : nodes.length < n + 1 := Nat.lt_succ_of_le hqueue.length_le_fin
  have hbudget : (vcpu.elim 0 fun v => (cfg.hooks v).budget (s.servers v)) =
      vcpu.elim 0 fun v => remaining (s.servers v) := by
    cases vcpu with
    | none => rfl
    | some v => exact hooks_budget htyped (kept_ofType (hkept v))
  unfold eventDelta
  dsimp only
  rw [forLinks_eq Fault.diverges _ _ hqueue hlen, hbudget]
  exact soonerLoop_eq htyped hkept none nodes _

end Loop

section Interval

variable [Fintype τ] {cfg : Config Budget τ n} {s : Scheduler Budget τ n}
  {x : Scheduler.Outcome Budget τ n} {p tcur : Nat}

/-- The VCPUs left on the queue whose events count: those whose period is at most
that of the VCPU selected, or all if there is none. -/
def watched (x : Scheduler.Outcome Budget τ n) (p : Nat) : List (Fin n) :=
  ((board x.left.toLinks).queue p).filter fun u =>
    x.vcpu.all fun v => period (x.left.servers u) ≤ period (x.left.servers v)

def events (x : Scheduler.Outcome Budget τ n) (p tcur : Nat) : List Nat :=
  ((watched x p).map fun u => nextEvent tcur (x.left.servers u)).filter (· ≠ 0)

def granted (x : Scheduler.Outcome Budget τ n) : Nat :=
  x.vcpu.elim 0 fun v => remaining (x.left.servers v)

def intervals (x : Scheduler.Outcome Budget τ n) (p tcur : Nat) : List Nat :=
  granted x :: (events x p tcur).map fun (e : Nat) => u64 (e - tcur)

/-- The interval enforces the budget of the VCPU selected and ends no later than the next event,
no subtraction wraps, and the count is in range. -/
structure Programmed (cfg : Config Budget τ n) (s : Scheduler Budget τ n)
    (x : Scheduler.Outcome Budget τ n) (p tcur : Nat) : Prop where
  enforced : ∀ v, x.vcpu = some v → 0 < x.tdelta ∧ x.tdelta ≤ remaining (x.left.servers v)
  punctual : ∀ e ∈ events x p tcur, tcur < e → 0 < x.tdelta ∧ x.tdelta ≤ e - tcur
  unwrapped : ∀ e ∈ events x p tcur, (u64 (e - tcur) : Int) = e - tcur
  count : 1 ≤ (s.finish cfg p (.at tcur) x).timer p ∧
    (s.finish cfg p (.at tcur) x).timer p ≤ cfg.cpuBusFreq / quantumHz

/-- No event is past, and the shortest of the intervals comes behind the last one
that is 0. -/
structure Timely (x : Scheduler.Outcome Budget τ n) (p tcur : Nat) : Prop where
  ahead : ∀ e ∈ events x p tcur, tcur ≤ e ∧ e < tcur + 2 ^ 64
  shortest : (∃ d ∈ intervals x p tcur, 0 < d) →
    ∃ d ∈ tail (intervals x p tcur), ∀ d' ∈ intervals x p tcur, 0 < d' → d ≤ d'

theorem u64_eq_iff {a b : Nat} : (u64 (a - b) : Int) = a - b ↔ b ≤ a ∧ a < b + 2 ^ 64 := by
  unfold u64
  omega

omit [Fintype τ] in
theorem finish_timer (cfg : Config Budget τ n) (s : Scheduler Budget τ n)
    (x : Scheduler.Outcome Budget τ n) (p tcur : Nat) :
    (s.finish cfg p (.at tcur) x).timer p =
      if 0 < x.tdelta then timerCount cfg x.tdelta else cfg.cpuBusFreq / quantumHz := by
  obtain ⟨charged, vcpu, left, tdelta⟩ := x
  have hswitch : ∀ (s : Scheduler Budget τ n) next, (s.switchTo cfg p next).timer = s.timer := by
    intro s next
    cases next <;> rfl
  simp only [finish, hswitch]
  cases vcpu with
  | none =>
    simp only [Option.elim_none, setTimer]
    split <;> simp [startTimer]
  | some v =>
    simp only [Option.elim_some, setTimer, acntBeginTimeslice]
    split <;> simp [startTimer, setAccount]

omit [Fintype τ] in
theorem count_iff (cfg : Config Budget τ n) (s : Scheduler Budget τ n)
    (x : Scheduler.Outcome Budget τ n) (p tcur : Nat) :
    (1 ≤ (s.finish cfg p (.at tcur) x).timer p ∧
      (s.finish cfg p (.at tcur) x).timer p ≤ cfg.cpuBusFreq / quantumHz) ↔
        quantumHz ≤ cfg.cpuBusFreq := by
  have hquant : quantumHz ≤ cfg.cpuBusFreq ↔ 1 ≤ cfg.cpuBusFreq / quantumHz := by
    unfold quantumHz
    omega
  rw [finish_timer, hquant]
  split
  · simp only [timerCount]
    split <;> omega
  · simp

theorem programmed_iff (hgrant : ∀ v, x.vcpu = some v → 0 < granted x)
    (hdelta : x.tdelta = ((events x p tcur).map fun (e : Nat) => u64 (e - tcur)).foldl runningMin
      (granted x)) :
    Programmed cfg s x p tcur ↔ quantumHz ≤ cfg.cpuBusFreq ∧ Timely x p tcur := by
  have hbnds := foldl_runningMin_bounds_iff (granted x)
    ((events x p tcur).map fun (e : Nat) => u64 (e - tcur))
  rw [← hdelta] at hbnds
  constructor
  · rintro ⟨henforced, hpunctual, hunwrapped, hcount⟩
    refine ⟨(count_iff cfg s x p tcur).mp hcount, fun e he => u64_eq_iff.mp (hunwrapped e he),
      hbnds.mp ?_⟩
    intro d hd hpos
    rcases List.mem_cons.mp hd with rfl | hd
    · cases hvcpu : x.vcpu with
      | none => simp [granted, hvcpu] at hpos
      | some v => simpa [granted, hvcpu] using henforced v hvcpu
    · obtain ⟨e, he, rfl⟩ := List.mem_map.mp hd
      have hexact := hunwrapped e he
      have hpos : 0 < u64 (e - tcur) := hpos
      obtain ⟨hpositive, hle⟩ := hpunctual e he (by omega)
      exact ⟨hpositive, show x.tdelta ≤ u64 (e - tcur) by omega⟩
  · rintro ⟨hfreq, hahead, hshortest⟩
    have hall := hbnds.mpr hshortest
    refine ⟨?_, ?_, fun e he => u64_eq_iff.mpr (hahead e he), (count_iff cfg s x p tcur).mpr hfreq⟩
    · intro v hv
      have hbound := hall (granted x) List.mem_cons_self (hgrant v hv)
      simpa [granted, hv] using hbound
    · intro e he hlater
      have hexact := u64_eq_iff.mpr (hahead e he)
      have hmem : u64 (e - tcur) ∈ intervals x p tcur :=
        List.mem_cons_of_mem _ (List.mem_map.mpr ⟨e, he, rfl⟩)
      have hpos : 0 < u64 (e - tcur) := by omega
      obtain ⟨hpositive, hle⟩ := hall _ hmem hpos
      exact ⟨hpositive, by omega⟩

end Interval

section Call

variable [Fintype τ] [DecidableEq τ] {cfg : Config Budget τ n} {s : Scheduler Budget τ n}
  {b : Board τ (Fin n) Nat} {x : Scheduler.Outcome Budget τ n} {p tcur : Nat}

/-- An IO VCPU behind the one selected, with the same period, whose replenishment is
due. -/
def Overdue (s : Scheduler Budget τ n) (x : Scheduler.Outcome Budget τ n) (p tcur : Nat)
    (u : Fin n) : Prop :=
  ∃ v i, x.vcpu = some v ∧ x.charged u = .inr i ∧ i.T = period (x.charged v) ∧
    (∃ xs ys, (board s.toLinks).queue p = xs ++ ys ∧ v ∈ xs ∧ u ∈ ys) ∧ i.r.t ≠ 0 ∧ i.r.t ≤ tcur

theorem left_sound {fresh : Fin n → Budget} (h : Sound cfg s.toLinks b)
    (hpassed : Passed cfg s b p (.at tcur) fresh x) :
    Sound cfg x.left.toLinks (board x.left.toLinks) ∧
      ∀ u ∈ (board x.left.toLinks).queue p, u ∈ b.queue p := by
  cases hvcpu : x.vcpu with
  | none =>
    have hidle := h.idle p
    rw [← hpassed.idle hvcpu] at hidle
    rw [hidle.board_eq]
    exact ⟨hidle, fun u hu => hu⟩
  | some v =>
    obtain ⟨t, -, -, hpicked⟩ := hpassed.picked v hvcpu
    rw [hpicked.board_eq]
    refine ⟨hpicked, fun u hu => ?_⟩
    simp only [Board.pick, Function.update_self] at hu
    split at hu
    · exact List.mem_of_mem_erase hu
    · exact hu

omit [Fintype τ] in
theorem left_servers {fresh : Fin n → Budget}
    (hpassed : Passed cfg s b p (.at tcur) fresh x) (u : Fin n) :
    x.left.servers u = fresh u ∨ x.left.servers u = x.charged u ∧
      (u ∈ b.queue p → ∃ v, x.vcpu = some v ∧ Outdoes cfg fresh (b.queue p) v u) := by
  obtain ⟨best, hscan, hservers, -⟩ := hpassed.scanned
  rw [hservers, hpassed.selected]
  by_cases hu : u ∈ b.queue p
  · exact (hscan.seen u hu).imp_right fun ⟨hsame, houtdone⟩ => ⟨hsame, fun _ => houtdone⟩
  · exact .inr ⟨hscan.unseen u hu, fun hmem => absurd hmem hu⟩

variable (htyped : Typed cfg) (hinv : Inv cfg s) (hkept : ∀ v, Kept cfg v (s.servers v))
  (hpositive : ∀ v, 0 < period (s.servers v)) (hpass : s.pass cfg p (.at tcur) = .ok x)

include htyped hinv hkept hpositive hpass

theorem passed_at : Passed cfg s (board s.toLinks) p (.at tcur)
    (fun v => refreshed tcur (x.charged v)) x :=
  pass_spec hinv.1 hpass (refreshes_at htyped (fun v => kept_ofType (hkept v)) hpositive
    (pass_charged hpass))

omit hinv hpositive in
theorem charged_at (v : Fin n) :
    Kept cfg v (x.charged v) ∧ Kept cfg v (refreshed tcur (x.charged v)) := by
  have hcharge := charged_good (kept_lasting htyped).hooks hkept (pass_charged hpass) v
  obtain ⟨r, hr, hnext⟩ := ((kept_lasting htyped).hooks v).update _ hcharge tcur (.at tcur)
  rw [hooks_update htyped (kept_ofType hcharge)] at hr
  exact ⟨hcharge, Except.ok.inj hr ▸ hnext⟩

theorem left_kept (u : Fin n) :
    Kept cfg u (x.left.servers u) ∧ period (x.left.servers u) = period (x.charged u) := by
  obtain ⟨hcharge, hfresh⟩ := charged_at htyped hkept hpass u
  rcases left_servers (passed_at htyped hinv hkept hpositive hpass) u with hsame | ⟨hsame, -⟩
  · rw [hsame]
    exact ⟨hfresh, refreshed_period tcur _⟩
  · rw [hsame]
    exact ⟨hcharge, rfl⟩

theorem selected_refreshed {v : Fin n} (hv : x.vcpu = some v) :
    x.left.servers v = refreshed tcur (x.charged v) ∧ 0 < granted x := by
  have hpassed := passed_at htyped hinv hkept hpositive hpass
  obtain ⟨best, hscan, hservers, -⟩ := hpassed.scanned
  have hchoice := hpassed.selected.symm.trans hv
  have hfresh : x.left.servers v = refreshed tcur (x.charged v) := by
    rw [hservers]
    exact hscan.chosen v hchoice
  have hbudget := (firstShortest_mem _ _ hchoice).2
  rw [decide_eq_true_eq, hooks_budget htyped (kept_ofType (charged_at htyped hkept hpass v).2)]
    at hbudget
  refine ⟨hfresh, ?_⟩
  simpa [granted, hv, hfresh] using hbudget

theorem tdelta_eq : x.tdelta =
    ((events x p tcur).map fun (e : Nat) => u64 (e - tcur)).foldl runningMin (granted x) := by
  have hpassed := passed_at htyped hinv hkept hpositive hpass
  have hleft := left_kept htyped hinv hkept hpositive hpass
  obtain ⟨best, hscan, hservers, hdelta⟩ := hpassed.scanned
  have hperiod : ∀ u, (decide (best.Tnext = 0 ∨ period (x.left.servers u) ≤ best.Tnext)) =
      x.vcpu.all fun v => period (x.left.servers u) ≤ period (x.left.servers v) := by
    intro u
    rw [hscan.Tnext, ← hpassed.selected]
    cases hvcpu : x.vcpu with
    | none => simp
    | some v =>
      have hv := (selected_refreshed htyped hinv hkept hpositive hpass hvcpu).1
      have hpos : period (x.charged v) ≠ 0 := by
        have hsame := charged_kept htyped (fun v => kept_ofType (hkept v)) (pass_charged hpass) v
        rw [hsame.2]
        exact Nat.ne_of_gt (hpositive v)
      simp [htyped.period, hv, refreshed_period, hpos]
  rw [eventDelta_eq htyped (fun u => (hleft u).1) x.vcpu
    ((left_sound hinv.1 hpassed).1.queue.chain p)] at hdelta
  rw [← Except.ok.inj hdelta]
  simp only [hperiod]
  rfl

theorem events_ahead (hnone : ∀ u, ¬Overdue s x p tcur u) {e : Nat} (he : e ∈ events x p tcur) :
    tcur < e := by
  have hpassed := passed_at htyped hinv hkept hpositive hpass
  have hleft := left_kept htyped hinv hkept hpositive hpass
  obtain ⟨hmem, hne⟩ := List.mem_filter.mp he
  obtain ⟨u, hu, rfl⟩ := List.mem_map.mp hmem
  obtain ⟨hu, hwatched⟩ := List.mem_filter.mp hu
  have hqueued := (left_sound hinv.1 hpassed).2 u hu
  have hevent : nextEvent tcur (x.left.servers u) ≠ 0 := by simpa using hne
  rcases left_servers hpassed u with hsame | ⟨hsame, houtdone⟩
  · cases hcharge : x.charged u with
    | inl m =>
      have hkept' := (hleft u).1
      rw [hsame, hcharge] at hkept' hevent ⊢
      exact main_event_later hkept' hevent
    | inr i =>
      rw [hsame, hcharge] at hevent ⊢
      exact io_event_later hevent
  · -- A VCPU that was skipped and counts has the period of the one selected.
    obtain ⟨v, hv, houtdoes⟩ := houtdone hqueued
    have hv' := (selected_refreshed htyped hinv hkept hpositive hpass hv).1
    simp only [hv, Option.all_some, decide_eq_true_eq] at hwatched
    rw [hv', refreshed_period, hsame] at hwatched
    simp only [Outdoes, htyped.period, refreshed_period] at houtdoes
    rcases houtdoes with hlt | ⟨heq, hbefore⟩
    · omega
    · cases hcharge : x.charged u with
      | inl m =>
        have hkept' := (hleft u).1
        rw [hsame, hcharge] at hkept' hevent ⊢
        exact main_event_later hkept' hevent
      | inr i =>
        rw [hsame, hcharge] at hevent ⊢
        apply Nat.lt_of_not_le
        intro hle
        apply hnone u
        rw [hcharge] at heq
        exact ⟨v, i, hv, hcharge, heq.symm, hbefore, hevent, hle⟩

theorem timely_of_none_overdue (hnone : ∀ u, ¬Overdue s x p tcur u)
    (hfits : ∀ e ∈ events x p tcur, e < tcur + 2 ^ 64) : Timely x p tcur := by
  have hahead := fun e (he : e ∈ events x p tcur) =>
    events_ahead htyped hinv hkept hpositive hpass hnone he
  refine ⟨fun e he => ⟨(hahead e he).le, hfits e he⟩, fun hsome => ?_⟩
  have hwaits : ∀ d ∈ (events x p tcur).map (fun (e : Nat) => u64 (e - tcur)), 0 < d := by
    intro d hd
    obtain ⟨e, he, rfl⟩ := List.mem_map.mp hd
    have hlater := hahead e he
    have hexact := u64_eq_iff.mpr ⟨hlater.le, hfits e he⟩
    show 0 < u64 (e - tcur)
    omega
  exact exists_least_of_pos hwaits hsome

end Call

section Run

variable [Fintype τ] [DecidableEq τ] {cfg : Config Budget τ n}

end Run

end Quest.Sched.PreemptionTimer
