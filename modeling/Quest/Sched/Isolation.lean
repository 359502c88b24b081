import Quest.Lib.Supply
import Quest.Sched.Sporadic

/-! A Main VCPU whose timeslices end in time is charged at most `C` in each period.  The argument
is a potential: what the replenishments can still supply before an instant. -/
namespace Quest.Sched.Isolation

open Quest.Lib.Supply
open Quest.Sched.Hooks
open Quest.Sched.ReplPool
open Quest.Sched.Sporadic
open Quest.Sched.Ledger (Entry Balanced Unspent Ordered)

variable {C T x : Nat}

def outlook (T x : Nat) (es : List Entry) : Nat := (es.map fun r => supply T x r.t r.b).sum

/-- The same if `usage` of the head is used, which comes back a period later, and
the rest of the head is not used before `start`. -/
def potential (T x start usage : Nat) : List Entry → Nat
  | [] => 0
  | r :: es =>
      supply T x (r.t + T) usage + supply T x (max (r.t + usage) start) (r.b - usage) +
        outlook T x es

theorem potential_cons (start usage : Nat) (r : Entry) (es : List Entry) :
    potential T x start usage (r :: es) = supply T x (r.t + T) usage +
      supply T x (max (r.t + usage) start) (r.b - usage) + outlook T x es := rfl

@[simp] theorem outlook_cons (r : Entry) (es : List Entry) :
    outlook T x (r :: es) = supply T x r.t r.b + outlook T x es := rfl

@[simp] theorem outlook_insert (r : Entry) (es : List Entry) :
    outlook T x (Ledger.insert r es) = supply T x r.t r.b + outlook T x es := by
  unfold outlook
  rw [((Ledger.insert_perm r es).map _).sum_eq, List.map_cons, List.sum_cons]

theorem potential_unused (start : Nat) (es : List Entry) :
    potential T x start 0 es ≤ outlook T x es := by
  cases es with
  | nil => exact Nat.le_refl 0
  | cons r es =>
    rw [potential, supply_zero, outlook_cons, Nat.sub_zero, Nat.add_zero, Nat.zero_add]
    apply Nat.add_le_add_right
    apply supply_le_of_le
    exact Nat.le_max_left _ _

theorem potential_le_of_le {start start' : Nat} (usage : Nat) (es : List Entry)
    (h : start ≤ start') : potential T x start' usage es ≤ potential T x start usage es := by
  cases es with
  | nil => exact le_refl 0
  | cons r es =>
    apply Nat.add_le_add_right
    apply Nat.add_le_add_left
    apply supply_le_of_le
    omega

variable {usage : Nat} {r : Entry} {es : List Entry}

theorem potential_use (hT : 0 < T) {s δ : Nat} (hstart : r.t + usage ≤ s) (hfits : usage + δ ≤ r.b)
    :
    (min (s + δ) x - s) + potential T x 0 (usage + δ) (r :: es) ≤
      potential T x 0 usage (r :: es) := by
  have hlater : supply T x (r.t + T) (usage + δ) =
      supply T x (r.t + T) usage + supply T x (r.t + usage + T) δ := by
    rw [supply_add]
    congr 2
    omega
  have hnow : supply T x (r.t + usage) (r.b - usage) =
      supply T x (r.t + usage) δ + supply T x (r.t + (usage + δ)) (r.b - (usage + δ)) := by
    rw [← Nat.add_assoc, ← supply_add]
    congr 1
    omega
  have hperiod := supply_next (x := x) hT (r.t + usage) δ
  rw [potential_cons, potential_cons]
  rw [Nat.max_eq_left (Nat.zero_le _), Nat.max_eq_left (Nat.zero_le _), hlater, hnow, hperiod]
  omega

theorem potential_exhausted (start : Nat) (r : Entry) (es : List Entry) :
    potential T x start r.b (r :: es) = outlook T x (Ledger.insert ⟨r.t + T, r.b⟩ es) := by
  rw [potential, outlook_insert, Nat.sub_self, supply_zero, Nat.add_zero]

theorem potential_split {start : Nat} (hstart : r.t + usage ≤ start) :
    potential T x start 0 (⟨r.t, r.b - usage⟩ :: Ledger.insert ⟨r.t + T, usage⟩ es) ≤
      potential T x 0 usage (r :: es) := by
  rw [potential_cons, potential_cons, supply_zero, outlook_insert]
  have hrest : supply T x (max (r.t + 0) start) (r.b - usage) ≤
      supply T x (max (r.t + usage) 0) (r.b - usage) := by
    apply supply_le_of_le
    omega
  dsimp only
  rw [Nat.sub_zero]
  omega

theorem potential_split_full {start : Nat} {s : Entry} (hstart : r.t + usage ≤ start)
    (hord : r.t ≤ s.t) :
    potential T x start 0 (⟨s.t, s.b + (r.b - usage)⟩ :: Ledger.insert ⟨s.t + T, usage⟩ es) ≤
      potential T x 0 usage (r :: s :: es) := by
  rw [potential_cons, potential_cons, supply_zero, outlook_insert, outlook_cons]
  dsimp only
  rw [Nat.sub_zero, Nat.add_comm s.b, supply_add]
  have hremnant : supply T x (max (s.t + 0) start) (r.b - usage) ≤
      supply T x (max (r.t + usage) 0) (r.b - usage) := by
    apply supply_le_of_le
    omega
  have hnext : supply T x (max (s.t + 0) start + (r.b - usage)) s.b ≤ supply T x s.t s.b := by
    apply supply_le_of_le
    omega
  have hlater : supply T x (s.t + T) usage ≤ supply T x (r.t + T) usage := by
    apply supply_le_of_le
    omega
  omega

theorem potential_mergeDue (now b : Nat) (es : List Entry) :
    outlook T x (Ledger.mergeDue now 0 b es) ≤ supply T x now b + outlook T x es := by
  induction es generalizing b with
  | nil => exact le_rfl
  | cons s es ih =>
    rw [Ledger.mergeDue, outlook_cons]
    split
    · have hdue : supply T x (now + b) s.b ≤ supply T x s.t s.b := by
        apply supply_le_of_le
        omega
      have hmerged := ih (s.b + b)
      rw [add_comm s.b b, supply_add] at hmerged
      rw [add_comm s.b b]
      omega
    · exact le_rfl

variable {now : Nat}

theorem potential_unblock {clock : Nat} (hclock : clock ≤ now) (hleft : Unspent 0 es) :
    outlook T x (Ledger.unblockCheck now now 0 es) ≤ potential T x clock 0 es := by
  match es with
  | [] => exact hleft.elim
  | r :: es =>
    rw [potential_cons, supply_zero, Nat.zero_add, Nat.add_zero, Nat.sub_zero, Ledger.unblockCheck]
    rw [Ledger.unspent_cons] at hleft
    by_cases hdue : r.t ≤ now
    · have hcap : 0 < Ledger.capacity 0 now (r :: es) := by
        rw [Ledger.capacity, if_neg (by omega)]
        omega
      rw [if_pos hcap]
      apply (potential_mergeDue now r.b es).trans
      apply Nat.add_le_add_right
      apply supply_le_of_le
      omega
    · have hcap : ¬0 < Ledger.capacity 0 now (r :: es) := by
        rw [Ledger.capacity, if_pos (by omega)]
        omega
      rw [if_neg hcap, outlook_cons, Nat.max_eq_left (by omega)]

structure Settled (T x now before : Nat) (runnable : Bool) (usage : Nat) (es : List Entry) :
    Prop where
  ordered : Ordered es
  blocked : runnable = false → usage = 0
  used : ∀ r ∈ es.head?, usage = 0 ∨ r.t + usage ≤ now
  supplied : potential T x (if runnable then 0 else now) usage es ≤ before

theorem settled_unused {before : Nat} (runnable : Bool) (h : Ordered es)
    (hsup : outlook T x es ≤ before) : Settled T x now before runnable 0 es where
  ordered := h
  blocked _ := rfl
  used _ _ := .inl rfl
  supplied := (potential_unused _ es).trans hsup

theorem exhaust_unused (fuel : Nat) (hpos : ∀ s ∈ es, 0 < s.b) :
    Ledger.exhaust T fuel 0 es = (0, es) := by
  cases fuel with
  | zero => rfl
  | succ fuel =>
    cases es with
    | nil => rfl
    | cons r es =>
      rw [List.forall_mem_cons] at hpos
      rw [Ledger.exhaust, if_neg (by omega)]

theorem budgetCheck_in_time (hpos : ∀ s ∈ r :: es, 0 < s.b) (hdue : r.t ≤ now)
    (hfits : usage ≤ r.b) : Ledger.budgetCheck T now usage (r :: es) =
      if usage = r.b then (0, Ledger.insert ⟨r.t + T, r.b⟩ es) else (usage, r :: es) := by
  have hcap : Ledger.capacity usage now (r :: es) = (r.b : Int) - usage := by
    rw [Ledger.capacity, if_neg (Nat.not_lt.mpr hdue)]
  unfold Ledger.budgetCheck
  by_cases hused : usage = r.b
  · subst hused
    have hreposted : ∀ s ∈ Ledger.insert ⟨r.t + T, r.b⟩ es, 0 < s.b := by
      rw [List.forall_mem_cons] at hpos
      intro s hs
      rw [Ledger.mem_insert] at hs
      obtain rfl | hs := hs
      · exact hpos.1
      · exact hpos.2 s hs
    rw [if_pos (by omega), if_pos rfl, Ledger.exhaust, if_pos (Nat.le_refl _), Nat.sub_self,
      exhaust_unused r.b hreposted]
    rfl
  · rw [if_neg (by omega), if_neg hused]

theorem splitCheck_settled (hT : 0 < T) {limit : Nat} (hlimit : 1 < limit) (h : Ordered (r :: es))
    (hdue : r.t + usage ≤ now) : let result := Ledger.splitCheck limit T now usage (r :: es)
    Settled T x now (potential T x 0 usage (r :: es)) false result.1 result.2 := by
  have hord : Ordered (Ledger.splitCheck limit T now usage (r :: es)).2 :=
    Ledger.splitCheck_ordered now usage h
  have hlate (s : Entry) (b usage : Nat) (fs : List Entry) :
      Ledger.insert ⟨s.t + T, usage⟩ (⟨s.t, b⟩ :: fs) =
        ⟨s.t, b⟩ :: Ledger.insert ⟨s.t + T, usage⟩ fs := by
    unfold Ledger.insert
    rw [List.orderedInsert_of_not_le]
    dsimp only [Entry.Before]
    omega
  simp only [Ledger.splitCheck] at hord ⊢
  by_cases husage : usage = 0
  · subst husage
    exact ⟨hord, fun _ => rfl, fun _ _ => .inl rfl, potential_le_of_le 0 _ (Nat.zero_le now)⟩
  · rw [if_pos (by omega)] at hord ⊢
    split at hord
    · rename_i hfull
      rw [if_pos hfull]
      cases es with
      | nil =>
        rw [List.length_singleton] at hfull
        omega
      | cons s rest =>
        refine ⟨hord, fun _ => rfl, fun _ _ => .inl rfl, ?_⟩
        dsimp only
        rw [hlate]
        exact potential_split_full hdue (List.rel_of_pairwise_cons h (by simp))
    · rename_i hroom
      rw [if_neg hroom]
      refine ⟨hord, fun _ => rfl, fun _ _ => .inl rfl, ?_⟩
      rw [hlate]
      exact potential_split hdue

theorem endTimeslice_settled (hT : 0 < T) {limit : Nat} (hlimit : 1 < limit) (runnable : Bool)
    (hpos : ∀ s ∈ r :: es, 0 < s.b) (h : Ordered (r :: es)) (hdue : r.t + usage ≤ now)
    (hfits : usage ≤ r.b) :
    let result := Ledger.endTimeslice limit T runnable usage now now (r :: es)
    Settled T x now (potential T x 0 usage (r :: es)) runnable result.1 result.2 := by
  simp only [Ledger.endTimeslice, budgetCheck_in_time hpos (by omega : r.t ≤ now) hfits]
  by_cases hused : usage = r.b
  · have hord := Ledger.insert_ordered ⟨r.t + T, r.b⟩ h.of_cons
    have hunused : Settled T x now (potential T x 0 r.b (r :: es)) runnable 0
        (Ledger.insert ⟨r.t + T, r.b⟩ es) :=
      settled_unused runnable hord (potential_exhausted 0 r es).ge
    rw [if_pos hused, hused]
    cases runnable with
    | true => exact hunused
    | false =>
      have hsplit : Ledger.splitCheck limit T now 0 (Ledger.insert ⟨r.t + T, r.b⟩ es) =
          (0, Ledger.insert ⟨r.t + T, r.b⟩ es) := by
        cases Ledger.insert ⟨r.t + T, r.b⟩ es with
        | nil => rfl
        | cons s rest =>
          simp only [Ledger.splitCheck]
          rw [if_neg (by omega)]
      rw [if_neg (by decide), hsplit]
      exact hunused
  · rw [if_neg hused]
    cases runnable with
    | true =>
      refine ⟨h, by simp, ?_, le_rfl⟩
      rintro _ ⟨⟩
      exact .inr hdue
    | false => exact splitCheck_settled hT hlimit h hdue

/-- The readings of one hook give the same instant, a VCPU is current from the instant at which
its budget was found, and its timeslice is no longer than that budget. -/
def InTime {σ : Type} (h : Hosted σ) (event : HostEvent) : Prop :=
  ClockForward h event ∧
    match event with
    | .wakeup unblock _ _ => unblock.first = unblock.second
    | .schedule tcur endTsc scan update =>
        endTsc = Tsc.at endTsc.first ∧ (scan.chooses = true → update.first = tcur) ∧
          (h.running = true → tcur - h.tprev ≤ h.granted)

instance {σ : Type} (h : Hosted σ) : (event : HostEvent) → Decidable (InTime h event)
  | .wakeup _ _ _ => inferInstanceAs (Decidable (_ ∧ _))
  | .schedule _ _ _ _ => inferInstanceAs (Decidable (_ ∧ _ ∧ _ ∧ _))

/-- The instant before which a blocked VCPU uses nothing. -/
def Hosted.start {σ : Type} (h : Hosted σ) : Nat := if h.busy then 0 else h.clock

theorem start_busy {σ : Type} {h : Hosted σ} (hbusy : h.busy = true) : Hosted.start h = 0 := by
  rw [Hosted.start, if_pos hbusy]

theorem start_blocked {σ : Type} {h : Hosted σ} (hready : h.runnable = false)
    (hrun : h.running = false) : Hosted.start h = h.clock := by
  rw [Hosted.start, Hosted.busy, hready, hrun]
  rfl

structure Within (T x bound : Nat) (h : Hosted Account) : Prop where
  ordered : Ordered h.server.es
  blocked : h.runnable = false → h.running = false → h.server.usage = 0
  used : ∀ r ∈ h.server.es.head?, h.server.usage = 0 ∨ r.t + h.server.usage ≤ h.clock
  current : h.running = true → h.tprev ≤ h.clock ∧ ∀ r ∈ h.server.es.head?,
    r.t + h.server.usage ≤ h.tprev ∧ h.server.usage + h.granted ≤ r.b
  supplied : chargedUpTo x h.charges +
    potential T x (Hosted.start h) h.server.usage h.server.es ≤ bound

variable {bound : Nat} {k k' : Hosted Account}

theorem within_wakeup (h : Within T x bound k) (hleft : Unspent k.server.usage k.server.es)
    {unblock update : Tsc} (hsame : unblock.first = unblock.second)
    (hunblock : k.clock ≤ unblock.first) (hupdate : k.clock ≤ update.first)
    (hstep : k.wakeup (ledgerServer T).hooks unblock now update = .ok k') :
    Within T x bound k' := by
  have hsup := h.supplied
  obtain ⟨hready, hrun, rfl⟩ | ⟨hbusy, rfl⟩ := wakeup_cases hstep
  · have hunused := h.blocked hready hrun
    rw [hunused] at hleft hsup
    refine ⟨?_, nofun, fun _ _ => .inl hunused, ?_, ?_⟩
    · exact Ledger.unblockCheck_ordered _ _ _ h.ordered (hunused ▸ hleft)
    · intro hcur
      rw [hrun] at hcur
      cases hcur
    · rw [start_blocked hready hrun] at hsup
      rw [start_busy rfl]
      dsimp only [ledgerServer]
      rw [hunused, ← hsame]
      have hpotential := (potential_unused (T := T) (x := x) 0 _).trans
        (potential_unblock hunblock hleft)
      omega
  · refine ⟨h.ordered, nofun, ?_, ?_, ?_⟩
    · intro r hr
      have hused := h.used r hr
      dsimp only [ledgerServer]
      omega
    · intro hcur
      have := h.current hcur
      exact ⟨this.1.trans hupdate, this.2⟩
    · rw [start_busy hbusy] at hsup
      exact hsup

theorem within_endTimeslice (hT : 0 < T) (h : Within T x bound k)
    (hbal : Balanced maxRepl C k.server.es) {tcur : Nat} {tsc : Tsc}
    (htcur : k.clock ≤ tcur) (htsc : tcur ≤ tsc.first) (hsame : tsc = Tsc.at tsc.first)
    (hslice : k.running = true → tcur - k.tprev ≤ k.granted)
    (hstep : k.endTimeslice (ledgerServer T).hooks tcur tsc = .ok k') :
    Within T x bound k' ∧ k'.running = false ∧ (k'.clock = tcur ∨ k'.clock = tsc.first) := by
  have hsup := h.supplied
  have hord := h.ordered
  obtain ⟨hrun, rfl⟩ | ⟨hrun, rfl⟩ := endTimeslice_cases hstep
  · obtain ⟨htprev, hhead⟩ := h.current hrun
    have hslice := hslice hrun
    have hpos := fun s hs => (hbal.positive s hs).1
    obtain ⟨r, es, hes⟩ := List.exists_cons_of_ne_nil hbal.nonempty
    rw [hes] at hhead hord hpos hsup
    obtain ⟨hbegun, hgrant⟩ := hhead r rfl
    have huse : (min (k.tprev + (tcur - k.tprev)) x - k.tprev) +
        potential T x 0 (k.server.usage + (tcur - k.tprev)) (r :: es) ≤
          potential T x 0 k.server.usage (r :: es) := potential_use hT hbegun (by omega)
    have hsettled := endTimeslice_settled (x := x) hT (by decide : 1 < maxRepl) k.runnable
      hpos hord (by omega : r.t + (k.server.usage + (tcur - k.tprev)) ≤ tsc.first)
      (by omega)
    dsimp only [ledgerServer]
    rw [hsame, hes]
    refine ⟨⟨hsettled.ordered, fun hready _ => hsettled.blocked hready, hsettled.used, nofun,
      ?_⟩, rfl, .inr rfl⟩
    have hafter := hsettled.supplied
    rw [start_busy (by rw [Hosted.busy, hrun, Bool.or_true])] at hsup
    simp only [Hosted.start, Hosted.busy, Tsc.at, Bool.or_false, chargedUpTo_cons]
    omega
  · refine ⟨⟨hord, h.blocked, ?_, ?_, ?_⟩, hrun, .inl rfl⟩
    · intro r hr
      have hused := h.used r hr
      dsimp only
      omega
    · intro hcur
      rw [hrun] at hcur
      cases hcur
    · refine Nat.le_trans (Nat.add_le_add_left (potential_le_of_le _ _ ?_) _) hsup
      unfold Hosted.start Hosted.busy
      split
      · exact le_refl 0
      · exact htcur

theorem within_scan (h : Within T x bound k) (hrun : k.running = false) {tcur : Nat}
    {scan : Scan} {tsc : Tsc} (hclock : k.clock ≤ tsc.first)
    (hchosen : scan.chooses = true → tsc.first = tcur)
    (hstep : k.scan (ledgerServer T).hooks tcur scan tsc = .ok k') : Within T x bound k' := by
  have hsup := h.supplied
  have hlater : ∀ r ∈ k.server.es.head?, k.server.usage = 0 ∨
      r.t + k.server.usage ≤ tsc.first := by
    intro r hr
    have hused := h.used r hr
    omega
  obtain rfl | ⟨hready, rfl⟩ | ⟨hchooses, hready, hbudget, more, rfl⟩ := scan_cases hstep
  · exact h
  · refine ⟨h.ordered, ?_, hlater, ?_, ?_⟩
    · simp [hready]
    · simp [hrun]
    · rw [start_busy (by rw [Hosted.busy, hready, Bool.true_or])] at hsup ⊢
      exact hsup
  · obtain ⟨r, es, hes, hdue, hgrant⟩ := head_of_budget hbudget
    have htcur := hchosen hchooses
    refine ⟨h.ordered, nofun, hlater, fun _ => ⟨htcur.ge, ?_⟩, ?_⟩
    · intro s hs
      have hbegun := hlater s hs
      have hmem : s ∈ k.server.es.head? := hs
      rw [hes, List.head?_cons, Option.mem_some_iff] at hmem
      subst hmem
      dsimp only [ledgerServer]
      omega
    · rw [start_busy (by rw [Hosted.busy, hready, Bool.true_or])] at hsup
      rw [start_busy (by rw [Hosted.busy, Bool.or_true])]
      exact hsup

theorem within_step (hT : 0 < T) (h : Within T x bound k)
    (hbal : Balanced maxRepl C k.server.es) (hleft : Unspent k.server.usage k.server.es)
    {event : HostEvent} (hevent : InTime k event)
    (hstep : k.step (ledgerServer T).hooks event = .ok k') : Within T x bound k' := by
  obtain ⟨hclock, hcalls⟩ := hevent
  cases event with
  | wakeup unblock now update =>
    obtain ⟨hunblock, hsecond, hnow, hupdate⟩ := clockForward_wakeup.mp hclock
    exact within_wakeup h hleft hcalls hunblock (by omega) hstep
  | schedule tcur endTsc scan update =>
    obtain ⟨hsame, hchosen, hslice⟩ := hcalls
    obtain ⟨htcur, hend, hsecond, hthird, hupdate⟩ := clockForward_schedule.mp hclock
    obtain ⟨k1, hslice1, hscan⟩ := bind_eq_ok.mp hstep
    obtain ⟨hwithin, hrun, hclock1⟩ :=
      within_endTimeslice hT h hbal htcur hend hsame hslice hslice1
    exact within_scan hwithin hrun (by omega) hchosen hscan

/-- A Main VCPU is never charged more than `C` for each period that has begun
since `vcpu_init`. -/
theorem charged_within_periods (C T vcpuInitTime : Nat) (hC : 0 < C) (hCT : C ≤ T)
    (htime : 0 < vcpuInitTime) :
    ∃ v0, mainVcpuInit C T vcpuInitTime = .ok v0 ∧
      ∀ h, Lib.Reach.Reaches (Hosted.step mainVcpuHooks) InTime
          (Hosted.initial v0 vcpuInitTime) h →
        ∀ x, chargedUpTo x h.charges ≤ C * (1 + (x - vcpuInitTime) / T) := by
  have hT : 0 < T := Nat.lt_of_lt_of_le hC hCT
  obtain ⟨v0, hinit, hkeeps⟩ := mainVcpuInit_keeps C T vcpuInitTime hC htime
  refine ⟨v0, hinit, fun h hreach x => ?_⟩
  have hinv : ∃ k, Alike (Keeps C T) h k ∧
      Within T x (C * (1 + (x - vcpuInitTime) / T)) k := by
    have halike : Alike (Keeps C T) (Hosted.initial v0 vcpuInitTime)
        (Hosted.initial ⟨[⟨vcpuInitTime, C⟩], 0, 0⟩ vcpuInitTime) := ⟨hkeeps, rfl⟩
    apply alike_invariant (mainVcpuHooks_simulates C T) (Within T x _) hreach halike
    · refine ⟨List.pairwise_singleton _ _, fun _ _ => rfl, fun _ _ => .inl rfl, nofun, ?_⟩
      have hsupply := supply_le (x := x) hT vcpuInitTime C
      apply Nat.le_trans _ hsupply
      exact (Nat.zero_add _).le.trans (potential_unused _ _)
    · exact fun h event hevent => hevent.1
    · intro h k k' event halike hwithin hevent hstep
      apply within_step hT hwithin halike.1.1.balanced _ _ hstep
      · exact halike.1.2.2.1 ▸ halike.1.1.unspent
      · rw [halike.2]
        exact hevent
  obtain ⟨k, halike, hwithin⟩ := hinv
  have hcharges : k.charges = h.charges := by rw [halike.2]
  rw [← hcharges]
  exact (Nat.le_add_right _ _).trans hwithin.supplied

theorem charged_within_periods_two_of_five :
    ∃ v0 h, mainVcpuInit 2 5 1 = .ok v0 ∧
      Lib.Reach.Reaches (Hosted.step mainVcpuHooks) InTime (Hosted.initial v0 1) h ∧
      h.charges = [(6, 7), (1, 3)] ∧ chargedUpTo 7 h.charges ≤ 2 * (1 + (7 - 1) / 5) := by
  obtain ⟨v0, hinit, hall⟩ := charged_within_periods 2 5 1 (by decide) (by decide) (by decide)
  have hrun : (mainRun InTime 2 5 1
      [.wakeup (.at 1) 1 (.at 1), .schedule 1 (.at 1) (.choose true) (.at 1),
        .schedule 3 (.at 3) (.choose true) (.at 3), .schedule 6 (.at 6) (.choose false) (.at 6),
        .schedule 7 (.at 7) .refresh (.at 7)]).map Hosted.charges = some [(6, 7), (1, 3)] := by
    decide
  obtain ⟨h, hh, hcharges⟩ := Option.map_eq_some_iff.mp hrun
  have hreach := mainRun_reaches hinit hh
  exact ⟨v0, h, hinit, hreach, hcharges, hall h hreach 7⟩

end Quest.Sched.Isolation
