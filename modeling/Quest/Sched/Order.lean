import Quest.Sched.Sporadic

/-! The order of the replenishments.  `budget_check` postpones the head by the overrun and then
merges at most once. -/
namespace Quest.Sched.Order

open Quest.Sched.Hooks List
open Quest.Sched.ReplPool
open Quest.Sched.Sporadic
open Quest.Sched.Ledger (Entry Balanced Unspent Ordered BeforeThird)

variable {C T : Nat}

/-- A timeslice that brings the usage to `usage` does not overrun the head or,
when the replenishments it uses up have been moved a period ahead, what is left
of it does not reach beyond the third. -/
def OverrunFits (T usage : Nat) : List Entry → Prop
  | [] => True
  | r :: es => r.b < usage →
      BeforeThird (Ledger.exhaust T (usage + 1) usage (r :: es)).1
        (Ledger.exhaust T (usage + 1) usage (r :: es)).2

instance (T usage : Nat) : (es : List Entry) → Decidable (OverrunFits T usage es)
  | [] => isTrue trivial
  | _ :: _ => inferInstanceAs (Decidable (_ → _))

def Earliest (now : Nat) (es : List Entry) (t : Nat) : Prop :=
  IsLeast {t | now < t ∧ ∃ r ∈ es, r.t = t} t ∨ t = 0 ∧ ∀ r ∈ es, r.t ≤ now

theorem nextEvent_earliest (now : Nat) {es : List Entry} (h : Ordered es) :
    Earliest now es (Ledger.nextEvent now es) := by
  unfold Ledger.nextEvent
  induction es with
  | nil => exact .inr ⟨rfl, nofun⟩
  | cons r es ih =>
    rw [find?_cons]
    by_cases hlater : now < r.t
    · simp only [hlater, decide_true, Option.map_some, Option.getD_some]
      refine .inl ⟨⟨hlater, r, by simp, rfl⟩, ?_⟩
      rintro _ ⟨-, s, hs, rfl⟩
      obtain rfl | hs := mem_cons.mp hs
      · exact le_rfl
      · exact rel_of_pairwise_cons h hs
    · simp only [hlater, decide_false]
      obtain ⟨⟨hnow, s, hs, hst⟩, hleast⟩ | ⟨hzero, hnone⟩ := ih h.of_cons
      · refine .inl ⟨⟨hnow, s, mem_cons_of_mem r hs, hst⟩, ?_⟩
        rintro _ ⟨hq, q, hmem, rfl⟩
        obtain rfl | hmem := mem_cons.mp hmem
        · exact absurd hq hlater
        · exact hleast ⟨hq, q, hmem, rfl⟩
      · refine .inr ⟨hzero, ?_⟩
        rw [forall_mem_cons]
        exact ⟨Nat.le_of_not_lt hlater, hnone⟩

theorem head_earliest {Q : ReplQueue} {es : List Entry} (hrep : Q.Represents es)
    (h : Ordered es) : ∀ r ∈ es, ∃ i, Q.head = some i ∧ (Q.array i).t ≤ r.t := by
  intro r hr
  obtain ⟨s, rest, rfl⟩ := exists_cons_of_ne_nil (ne_nil_of_mem hr)
  obtain ⟨i, hhead, ht, -⟩ := hrep.head
  refine ⟨i, hhead, ?_⟩
  rw [ht]
  obtain rfl | hr := mem_cons.mp hr
  · exact le_rfl
  · exact rel_of_pairwise_cons h hr

theorem budgetCheck_ordered {now usage : Nat} {r : Entry} {es : List Entry}
    (h : Ordered (r :: es)) (hdue : r.t ≤ now) (hfits : OverrunFits T usage (r :: es)) :
    Ordered (Ledger.budgetCheck T now usage (r :: es)).2 := by
  have hexhaust := Ledger.exhaust_ordered (T := T) (usage + 1) usage h
  unfold Ledger.budgetCheck
  rw [Ledger.capacity, if_neg (not_lt.mpr hdue)]
  by_cases hused : r.b ≤ usage
  · rw [if_pos (by omega)]
    dsimp only
    split
    · rename_i hoverrun
      rw [Ledger.postpone_ordered_iff _ hexhaust]
      apply hfits
      have hrest := Ledger.exhaust_le (T := T) usage (usage - r.b)
        (Ledger.insert ⟨r.t + T, r.b⟩ es)
      rw [Ledger.exhaust, if_pos hused] at hoverrun
      omega
    · exact hexhaust
  · rw [if_neg (by omega)]
    exact h

def OrderKept (h : Hosted MainVcpu) (event : HostEvent) : Prop :=
  ClockForward h event ∧
    match event with
    | .wakeup _ _ _ => True
    | .schedule tcur _ _ _ => h.running = true →
        OverrunFits h.server.T (h.server.usage + (tcur - h.tprev)) h.server.Q.toList

instance (h : Hosted MainVcpu) : (event : HostEvent) → Decidable (OrderKept h event)
  | .wakeup _ _ _ => inferInstanceAs (Decidable (_ ∧ True))
  | .schedule _ _ _ _ => inferInstanceAs (Decidable (_ ∧ (_ → _)))

structure Sorted (h : Hosted Account) : Prop where
  ordered : Ordered h.server.es
  due : h.running = true → ∀ r ∈ h.server.es.head?, r.t ≤ h.clock

variable {k k' : Hosted Account}

theorem sorted_wakeup (h : Sorted k) (hleft : Unspent k.server.usage k.server.es)
    {unblock update : Tsc} {now : Nat} (hupdate : k.clock ≤ update.first)
    (hstep : k.wakeup (ledgerServer T).hooks unblock now update = .ok k') : Sorted k' := by
  obtain ⟨-, hidle, rfl⟩ | ⟨-, rfl⟩ := wakeup_cases hstep
  · refine ⟨Ledger.unblockCheck_ordered _ _ _ h.ordered hleft, ?_⟩
    intro hrun
    rw [hidle] at hrun
    cases hrun
  · exact ⟨h.ordered, fun hrun r hr => (h.due hrun r hr).trans hupdate⟩

theorem sorted_endTimeslice (h : Sorted k) (hnonempty : k.server.es ≠ []) {tcur : Nat} {tsc : Tsc}
    (hclock : k.clock ≤ tsc.first)
    (hfits : k.running = true → OverrunFits T (k.server.usage + (tcur - k.tprev)) k.server.es)
    (hstep : k.endTimeslice (ledgerServer T).hooks tcur tsc = .ok k') :
    Sorted k' ∧ k'.running = false := by
  obtain ⟨hrun, rfl⟩ | ⟨hrun, rfl⟩ := endTimeslice_cases hstep
  · refine ⟨⟨?_, nofun⟩, rfl⟩
    obtain ⟨r, es, hes⟩ := exists_cons_of_ne_nil hnonempty
    have hord := h.ordered
    have hdue := (h.due hrun r (by rw [hes]; rfl)).trans hclock
    have hfits := hfits hrun
    rw [hes] at hord hfits
    have hbudget := budgetCheck_ordered hord hdue hfits
    dsimp only [ledgerServer, Ledger.endTimeslice]
    rw [hes]
    split
    · exact hbudget
    · exact Ledger.splitCheck_ordered _ _ hbudget
  · refine ⟨⟨h.ordered, ?_⟩, hrun⟩
    intro hcur
    rw [hrun] at hcur
    cases hcur

theorem sorted_scan (h : Sorted k) (hrun : k.running = false) {tcur : Nat} {scan : Scan}
    {tsc : Tsc} (hstep : k.scan (ledgerServer T).hooks tcur scan tsc = .ok k') : Sorted k' := by
  obtain rfl | ⟨-, rfl⟩ | ⟨-, -, hbudget, more, rfl⟩ := scan_cases hstep
  · exact h
  · refine ⟨h.ordered, ?_⟩
    intro hcur
    rw [hrun] at hcur
    cases hcur
  · obtain ⟨r, es, hes, hdue, -⟩ := head_of_budget hbudget
    refine ⟨h.ordered, fun _ s hs => ?_⟩
    have hmem : s ∈ k.server.es.head? := hs
    rw [hes, head?_cons, Option.mem_some_iff] at hmem
    subst hmem
    exact hdue

theorem sorted_step (h : Sorted k) (hbal : Balanced maxRepl C k.server.es)
    (hleft : Unspent k.server.usage k.server.es) {event : HostEvent}
    (hclock : ClockForward k event)
    (hfits : ∀ tcur endTsc scan update, event = .schedule tcur endTsc scan update →
      k.running = true → OverrunFits T (k.server.usage + (tcur - k.tprev)) k.server.es)
    (hstep : k.step (ledgerServer T).hooks event = .ok k') : Sorted k' := by
  cases event with
  | wakeup unblock now update =>
    obtain ⟨hunblock, hsecond, hnow, hupdate⟩ := clockForward_wakeup.mp hclock
    exact sorted_wakeup h hleft (by omega) hstep
  | schedule tcur endTsc scan update =>
    obtain ⟨htcur, hend, -⟩ := clockForward_schedule.mp hclock
    obtain ⟨k1, hslice, hscan⟩ := bind_eq_ok.mp hstep
    obtain ⟨hsort, hrun⟩ :=
      sorted_endTimeslice h hbal.nonempty (by omega) (hfits _ _ _ _ rfl) hslice
    exact sorted_scan hsort hrun hscan

theorem sorted_of_reaches {v0 : MainVcpu} {vcpuInitTime : Nat} {h : Hosted MainVcpu}
    {guard : Hosted MainVcpu → HostEvent → Prop}
    (hkeeps : Keeps C T v0 ⟨[⟨vcpuInitTime, C⟩], 0, 0⟩)
    (hclock : ∀ h event, guard h event → ClockForward h event)
    (hfits : ∀ h tcur endTsc scan update, guard h (.schedule tcur endTsc scan update) →
      h.running = true → Ordered h.server.Q.toList →
        OverrunFits h.server.T (h.server.usage + (tcur - h.tprev)) h.server.Q.toList)
    (hreach : Lib.Reach.Reaches (Hosted.step mainVcpuHooks) guard
      (Hosted.initial v0 vcpuInitTime) h) :
    ∃ k, Alike (Keeps C T) h k ∧ Sorted k := by
  have halike : Alike (Keeps C T) (Hosted.initial v0 vcpuInitTime)
      (Hosted.initial ⟨[⟨vcpuInitTime, C⟩], 0, 0⟩ vcpuInitTime) := ⟨hkeeps, rfl⟩
  apply alike_invariant (mainVcpuHooks_simulates C T) Sorted hreach halike
  · exact ⟨pairwise_singleton _ _, nofun⟩
  · exact hclock
  · intro h k k' event halike hsort hevent hstep
    obtain ⟨⟨hsound, hT, husage, -⟩, hk⟩ := halike
    have hlist := hsound.represents.toList_eq
    apply sorted_step hsort hsound.balanced (husage ▸ hsound.unspent) _ _ hstep
    · rw [hk]
      exact hclock h event hevent
    · rintro tcur endTsc scan update rfl hrun
      rw [hk] at hrun
      have hfits := hfits h tcur endTsc scan update hevent hrun (hlist ▸ hsort.ordered)
      rw [hT, husage, hlist] at hfits
      rw [hk]
      exact hfits

/-- As long as no overrun carries the head beyond the third replenishment, the list is sorted, and
`main_vcpu_next_event` finds the earliest replenishment still to come. -/
theorem replenishments_ordered (C T vcpuInitTime : Nat) (hC : 0 < C) (htime : 0 < vcpuInitTime) :
    ∃ v₀, mainVcpuInit C T vcpuInitTime = .ok v₀ ∧
      ∀ h, Lib.Reach.Reaches (Hosted.step mainVcpuHooks) OrderKept
          (Hosted.initial v₀ vcpuInitTime) h →
        Ordered h.server.Q.toList ∧
        (∀ r ∈ h.server.Q.toList, ∃ i, h.server.Q.head = some i ∧ (h.server.Q.array i).t ≤ r.t) ∧
        ∀ now, ∃ t, mainVcpuNextEvent h.server now = .ok t ∧
          Earliest now h.server.Q.toList t := by
  obtain ⟨v₀, hinit, hkeeps⟩ := mainVcpuInit_keeps C T vcpuInitTime hC htime
  refine ⟨v₀, hinit, fun h hreach => ?_⟩
  obtain ⟨k, ⟨⟨hsound, -⟩, -⟩, hsorted⟩ := sorted_of_reaches hkeeps (fun h event hevent => hevent.1)
    (fun h tcur endTsc scan update hevent hrunning _ => hevent.2 hrunning) hreach
  rw [hsound.represents.toList_eq]
  exact ⟨hsorted.ordered, head_earliest hsound.represents hsorted.ordered, fun now =>
    ⟨_, mainVcpuNextEvent_eq hsound.represents now, nextEvent_earliest now hsorted.ordered⟩⟩

/-- Two overruns leave three replenishments, and a third one carries the first of them beyond the
last. -/
def overrunEvents : List HostEvent :=
  [.wakeup (.at 1) 1 (.at 1), .schedule 1 (.at 1) (.choose false) (.at 1),
    .schedule 9 (.at 9) .skip (.at 9), .wakeup (.at 9) 9 (.at 9),
    .schedule 9 (.at 9) (.choose false) (.at 9), .schedule 10 (.at 10) .skip (.at 10),
    .wakeup (.at 10) 10 (.at 10), .schedule 10 (.at 10) (.choose true) (.at 10),
    .schedule 18 (.at 18) .refresh (.at 18)]

theorem replenishments_out_of_order :
    ∃ v₀ h, mainVcpuInit 5 5 1 = .ok v₀ ∧
      Lib.Reach.Reaches (Hosted.step mainVcpuHooks) ClockForward (Hosted.initial v₀ 1) h ∧
      h.server.Q.toList = [⟨21, 4⟩, ⟨20, 1⟩] ∧ ¬Ordered h.server.Q.toList ∧
      h.clock = 18 ∧ mainVcpuNextEvent h.server 18 = .ok 21 ∧
      ¬Earliest 18 h.server.Q.toList 21 := by
  have hrun : (mainRun ClockForward 5 5 1 overrunEvents).map (fun h =>
      (h.server.Q.toList, h.clock, (mainVcpuNextEvent h.server 18).toOption)) =
        some ([⟨21, 4⟩, ⟨20, 1⟩], 18, some 21) := by decide
  obtain ⟨Q, hinit, -⟩ := mainVcpuInit_sound 5 5 1 (by decide) (by decide)
  obtain ⟨h, hh, hfacts⟩ := Option.map_eq_some_iff.mp hrun
  rw [Prod.mk.injEq, Prod.mk.injEq] at hfacts
  obtain ⟨hlist, hclock, hevent⟩ := hfacts
  refine ⟨_, h, hinit, mainRun_reaches hinit hh, hlist, ?_, hclock, ?_, ?_⟩
  · rw [hlist]
    decide
  · cases hnext : mainVcpuNextEvent h.server 18 with
    | error fault =>
      rw [hnext] at hevent
      cases hevent
    | ok t =>
      rw [hnext] at hevent
      exact congrArg Except.ok (Option.some.inj hevent)
  · rw [hlist]
    rintro (⟨-, hleast⟩ | ⟨hzero, -⟩)
    · have hle : 21 ≤ 20 := hleast ⟨by decide, ⟨20, 1⟩, by decide, rfl⟩
      omega
    · cases hzero

theorem replenishments_ordered_after_overrun :
    ∃ v₀ h, mainVcpuInit 5 5 1 = .ok v₀ ∧
      Lib.Reach.Reaches (Hosted.step mainVcpuHooks) OrderKept (Hosted.initial v₀ 1) h ∧
      h.server.Q.toList = [⟨10, 1⟩, ⟨14, 1⟩, ⟨14, 3⟩] ∧ Ordered h.server.Q.toList := by
  obtain ⟨v₀, hinit, hall⟩ := replenishments_ordered 5 5 1 (by decide) (by decide)
  have hrun : (mainRun OrderKept 5 5 1 (overrunEvents.take 7)).map (fun h => h.server.Q.toList) =
      some [⟨10, 1⟩, ⟨14, 1⟩, ⟨14, 3⟩] := by decide
  obtain ⟨h, hh, hlist⟩ := Option.map_eq_some_iff.mp hrun
  have hreach := mainRun_reaches hinit hh
  exact ⟨v₀, h, hinit, hreach, hlist, (hall h hreach).1⟩

end Quest.Sched.Order
